import Tellegen.Lib.Machine
import Mathlib.Data.List.Nodup

/-!
Load edits in the view of a multiconductor case. The rows that are shown and
the edits that are staged change at once; a timer then sends all staged edits
to the session. A call that fails fetches the rows again, but leaves the
edits staged.

Numbers are finite ones as `===` tells them apart, so that the two zeros are
one number. An answer of the session is a step of its own, and any other step
may come before it.
-/

namespace Tellegen.MultiLoads

variable {N S : Type}

/-! ### The session -/

structure LoadRow (N : Type) where
  load : String
  branch : ℕ
  pW : N
  qVar : N
  basePW : N
  baseQVar : N
  deriving DecidableEq

structure McLoadPowerEdit (N : Type) where
  load : String
  branch : ℕ
  pW : N
  qVar : N
  deriving DecidableEq

def LoadRow.key (row : LoadRow N) : String × ℕ := (row.load, row.branch)

def McLoadPowerEdit.key (edit : McLoadPowerEdit N) : String × ℕ := (edit.load, edit.branch)

/-- A row at the power that edits ask for, or else at its base power. -/
def overlay (edits : List (McLoadPowerEdit N)) (row : LoadRow N) : LoadRow N :=
  match edits.find? fun edit => edit.key = row.key with
  | some edit => { row with pW := edit.pW, qVar := edit.qVar }
  | none => { row with pW := row.basePW, qVar := row.baseQVar }

structure Session (N S : Type) where
  rows : List (LoadRow N)
  summary : S

def Session.Unique (session : Session N S) : Prop := (session.rows.map LoadRow.key).Nodup

instance (session : Session N S) : Decidable session.Unique :=
  inferInstanceAs (Decidable (session.rows.map LoadRow.key).Nodup)

/-- The operating point after a call, if the solution succeeds. A session with two loads of one
name refuses every call. -/
def Session.replaceLoadPowers (session : Session N S) (edits : List (McLoadPowerEdit N))
    (outcome : Except String S) : Except String (Session N S) :=
  if session.Unique then outcome.map fun summary => ⟨session.rows.map (overlay edits), summary⟩
  else .error "duplicate prepared load identity"

/-! ### The case -/

/-- Where a flush waits for the session. -/
inductive Flush (N : Type) where
  | solving (revision : ℕ) (edits : List (McLoadPowerEdit N))
  | refetching (error : String)

/-- What is offered beside an error: another flush, or a new solution of the case. -/
inductive Retry where
  | flush
  | solve
  deriving DecidableEq

/-- The part of a case that editing its loads reads or writes, with the error of the app. Of
results, snapshots and their times only whether they are there is kept. -/
structure MulticonductorCase (N S : Type) where
  mcSession : Option (Session N S)
  mcLoadBranches : List (LoadRow N)
  mcLoadEdits : List (McLoadPowerEdit N)
  mcEditRevision : ℕ
  mcEditTimer : Bool
  mcEditRunning : Bool
  solving : Bool
  result : Option S
  hasFullResult : Bool
  hasSnapshot : Bool
  hasSavedAt : Bool
  revisionGeneration : ℕ
  /-- The case is in the list of the app. -/
  listed : Bool
  error : Option String
  errorRetry : Option Retry
  flush : Option (Flush N)

namespace MulticonductorCase

section Steps

variable [DecidableEq N]

/-- Stages an absolute edit of a load branch. A number that is not finite is `none`. -/
def queueMultiLoadPower (c : MulticonductorCase N S) (load : String) (branch : ℕ)
    (pW qVar : Option N) : MulticonductorCase N S :=
  match c.mcSession with
  | none => { c with error := some "Run AC power flow once before editing loads" }
  | some _ =>
    match pW, qVar with
    | some pW, some qVar =>
      match c.mcLoadBranches.find? fun entry => entry.key = (load, branch) with
      | none =>
        { c with error := some ("Load " ++ load ++ " branch " ++ toString branch ++
            " is unavailable") }
      | some row =>
        let without := c.mcLoadEdits.filter fun edit => edit.key ≠ (load, branch)
        { c with
          mcLoadBranches := c.mcLoadBranches.map fun entry =>
            if entry.key = (load, branch) then { entry with pW, qVar } else entry
          mcLoadEdits :=
            if pW = row.basePW ∧ qVar = row.baseQVar then without
            else without ++ [⟨load, branch, pW, qVar⟩]
          mcEditRevision := c.mcEditRevision + 1
          hasSnapshot := false
          hasSavedAt := false
          solving := true
          mcEditTimer := true }
    | _, _ => { c with error := some "Load P and Q must be finite numbers" }

def send (c : MulticonductorCase N S) : MulticonductorCase N S :=
  { c with flush := some (.solving c.mcEditRevision c.mcLoadEdits) }

/-- The start of a flush. A running flush picks a new revision up in its own loop. -/
def flushMultiLoadPowers (c : MulticonductorCase N S) : MulticonductorCase N S :=
  if c.mcEditRunning then c
  else if c.mcSession.isNone || !c.listed then { c with solving := false }
  else send { c with mcEditRunning := true, solving := true, error := none }

def settle (c : MulticonductorCase N S) : MulticonductorCase N S :=
  { c with mcEditRunning := false, solving := false, flush := none }

/-- The flush when the session has answered its call. -/
def afterSolve (c : MulticonductorCase N S) (revision : ℕ) :
    Except String (Session N S) → MulticonductorCase N S
  | .ok session =>
    let c := { c with mcSession := some session }
    if !c.listed then settle c
    else if revision ≠ c.mcEditRevision then send c
    else
      settle { c with
        result := some session.summary
        hasFullResult := false
        hasSnapshot := false
        hasSavedAt := false
        revisionGeneration := c.revisionGeneration + 1 }
  | .error error => { c with flush := some (.refetching error) }

/-- The flush when the rows have been fetched again, or the session no longer answers. -/
def afterRefetch (c : MulticonductorCase N S) (session : Session N S) (error : String) :
    Bool → MulticonductorCase N S
  | true =>
    settle { c with
      mcLoadBranches := session.rows
      error := some error
      errorRetry := some .flush }
  | false =>
    settle { c with
      mcSession := none
      mcLoadEdits := []
      error := some error
      errorRetry := some .solve }

/-- One step: an edit, the timer, a retry, or an answer of the session. -/
inductive Event (N S : Type) where
  | queue (load : String) (branch : ℕ) (pW qVar : Option N)
  | timer
  | retry
  | solved (outcome : Except String S)
  | refetched (answers : Bool)

def step (c : MulticonductorCase N S) : Event N S → MulticonductorCase N S
  | .queue load branch pW qVar => c.queueMultiLoadPower load branch pW qVar
  | .timer => if c.mcEditTimer then flushMultiLoadPowers { c with mcEditTimer := false } else c
  | .retry => if c.errorRetry = some .flush then c.flushMultiLoadPowers else c
  | .solved outcome =>
    match c.mcSession, c.flush with
    | some session, some (.solving revision edits) =>
      c.afterSolve revision (session.replaceLoadPowers edits outcome)
    | _, _ => c
  | .refetched answers =>
    match c.mcSession, c.flush with
    | some session, some (.refetching error) => c.afterRefetch session error answers
    | _, _ => c

/-! ### What has been shown -/

/-- How the last flush has ended, the edits of the last call that has succeeded, and the staged
edits whose rows have been shown without them since they were made. -/
structure History (N : Type) where
  succeeded : Bool
  applied : List (McLoadPowerEdit N)
  reverted : List (McLoadPowerEdit N)

/-- A row of the branch of an edit at other powers. -/
def Reverts (rows : List (LoadRow N)) (edit : McLoadPowerEdit N) : Prop :=
  ∃ row ∈ rows, row.key = edit.key ∧ (row.pW, row.qVar) ≠ (edit.pW, edit.qVar)

instance (rows : List (LoadRow N)) (edit : McLoadPowerEdit N) : Decidable (Reverts rows edit) :=
  inferInstanceAs (Decidable (∃ row ∈ rows, row.key = edit.key ∧
    (row.pW, row.qVar) ≠ (edit.pW, edit.qVar)))

def History.next (history : History N) (c : MulticonductorCase N S) : Event N S → History N
  | .queue load branch pW qVar =>
    if (c.queueMultiLoadPower load branch pW qVar).mcEditRevision = c.mcEditRevision then history
    else
      { history with reverted := history.reverted.filter fun edit => edit.key ≠ (load, branch) }
  | .timer => history
  | .retry => history
  | .solved outcome =>
    match c.mcSession, c.flush with
    | some session, some (.solving revision edits) =>
      match session.replaceLoadPowers edits outcome with
      | .ok _ => ⟨c.listed && decide (revision = c.mcEditRevision), edits, history.reverted⟩
      | .error _ => { history with succeeded := false }
    | _, _ => history
  | .refetched answers =>
    match c.mcSession, c.flush with
    | some session, some (.refetching _) =>
      if answers then
        { history with
          reverted := history.reverted ++
            c.mcLoadEdits.filter fun edit => Reverts session.rows edit }
      else history
    | _, _ => history

end Steps

end MulticonductorCase

end Tellegen.MultiLoads
