import Tellegen.Lib.Machine
import Tellegen.StudyOps

/-!
The controllers of saved studies in a browser. Any number of controllers share
one store. A controller queues its operations, runs them one at a time through
its backend, commits what the backend returns and only then publishes it; an
approval is a token that lives in one controller.

Every await is a point where other steps can come between. A transaction of
the store is one step, which can fail. Tokens are numbered in the order they
are handed out, and no two are equal. Signals are numbered, and `aborted` holds
the reasons of the aborted ones. Revisions are exact numbers.

`log` records what happened, oldest first. It is read by no step, and neither
is the token that a queued operation carries.
-/

namespace Tellegen

variable {F : Type} {ι : Type} [DecidableEq ι]

/-- Reading a study, unlike changing it, leaves its approvals current. -/
def StudyOperation.keepsApprovals : StudyOperation F → Bool
  | .inspect .. | .compare .. | .recordEvidence .. => true
  | _ => false

def StudyOperation.isApply : StudyOperation F → Bool
  | .apply .. => true
  | _ => false

def StudyOperation.isPropose : StudyOperation F → Bool
  | .propose .. => true
  | _ => false

namespace StudyDocumentController

/-! ### Controllers -/

structure Approval where
  proposal : String
  state : String
  goal : Option String
  base : String
  revision : ℕ

structure Operation (F : Type) where
  request : StudyRequest F
  signal : Option ℕ
  token : Option ℕ

/-- Where the operation at the head of the queue stands. -/
inductive Running (F : Type) where
  | idle
  | executing (operation : Operation F)
  | committing (operation : Operation F) (completed : StudyBundle F)
  | settled (operation : Operation F) (completed : StudyBundle F) (stored : Except String Unit)

structure Controller (F : Type) where
  bundle : StudyBundle F
  running : Running F
  queue : List (Operation F)
  approvals : List (ℕ × Approval)

inductive Entry (F : Type) where
  | opened (bundle : StudyBundle F)
  | approved (token : ℕ) (approval : Approval) (bundle : StudyBundle F)
  | executed (operation : Operation F) (bundle : StudyBundle F)
  | stored (operation : Operation F) (before after : StudyBundle F)
  | completed (operation : Operation F)
  | rejected (error : String)

structure System (F ι : Type) where
  store : String → Option (StudyBundle F)
  controllers : ι → Option (Controller F)
  aborted : ℕ → Option String
  tokens : ℕ
  log : List (ι × Entry F)

inductive StoreFault where
  | database (error : String)
  | transaction (cause : String)

def StoreFault.error : StoreFault → String
  | .database error => error
  | .transaction cause =>
    "Study was not saved: " ++ cause ++ ". Free browser storage or export the Study and " ++
      "choose another destination before retrying."

inductive Event (F : Type) where
  | opened (bundle : StudyBundle F)
  | execute (request : StudyRequest F) (signal : Option ℕ)
  | recordUserApproval (proposal : String)
  | applyApprovedProposal (token : ℕ) (signal : Option ℕ)
  | started
  | executed (answer : Except String (StudyBundle F))
  | stored (fault : Option StoreFault)
  | returned
  | abort (signal : ℕ) (reason : String)

/-- A store of any content, before any controller is opened on it. -/
def start (store : String → Option (StudyBundle F)) : System F ι :=
  { store, controllers := fun _ => none, aborted := fun _ => none, tokens := 0, log := [] }

/-! ### Approvals -/

/-- A string field that is neither absent nor empty. -/
def present : Option String → Option String
  | some "" => none
  | field => field

/-- The approval of a proposal that matches the active goal and the recommendation. -/
def approvalOf (d : StudyDocument F) (proposal : String) : Except String Approval :=
  let refusal := "The proposal no longer matches the active goal and recommendation"
  match d.experiments[proposal]? with
  | none => .error refusal
  | some experiment =>
    match present experiment.startState, present d.recommendedState with
    | some base, some state =>
      if experiment.kind ∈ [.planning, .counterfactual] ∧ experiment.goal = d.activeGoal ∧
          state ∈ experiment.resultStates then
        .ok { proposal, state, goal := d.activeGoal, base, revision := d.revision }
      else .error refusal
    | _, _ => .error refusal

/-- A document writes an absent goal as `null`, as an approval does, so the two are equal. -/
def Approval.isCurrent (approval : Approval) (d : StudyDocument F) : Bool :=
  d.revision = approval.revision ∧ d.activeGoal = approval.goal ∧
    d.recommendedState = some approval.state ∧
    ((d.experiments[approval.proposal]?).bind ExperimentRecord.startState) = some approval.base

def Approval.request (approval : Approval) : StudyRequest F :=
  { expectedRevision := approval.revision
    operation := .apply approval.proposal approval.state approval.goal approval.base }

/-! ### The store -/

def write (store : String → Option (StudyBundle F)) (expected : ℕ) (bundle : StudyBundle F) :
    Except String (String → Option (StudyBundle F)) :=
  if ((store bundle.document.id).map fun current => current.document.revision) ≠ some expected ∨
      bundle.document.revision ≠ expected + 1 then
    .error "Study storage revision changed; reload the saved Study before retrying"
  else .ok (Function.update store bundle.document.id (some bundle))

/-! ### Steps -/

def throwIfAborted (s : System F ι) (signal : Option ℕ) : Except String Unit :=
  match signal.bind s.aborted with
  | some reason => .error reason
  | none => .ok ()

def put (s : System F ι) (i : ι) (c : Controller F) (entries : List (Entry F)) : System F ι :=
  { s with
    controllers := Function.update s.controllers i (some c)
    log := s.log ++ entries.map fun entry => (i, entry) }

/-- The controller takes up a document that is, or has been, in the store. -/
def openStudy (s : System F ι) (i : ι) (bundle : StudyBundle F) : System F ι :=
  match s.store bundle.document.id with
  | none => s
  | some saved =>
    if bundle.document.revision ≤ saved.document.revision then
      put s i { bundle, running := .idle, queue := [], approvals := [] } [.opened bundle]
    else s

def enqueue (s : System F ι) (i : ι) (c : Controller F) (operation : Operation F) :
    System F ι :=
  put s i { c with queue := c.queue ++ [operation] } []

def execute (s : System F ι) (i : ι) (c : Controller F) (request : StudyRequest F)
    (signal : Option ℕ) : System F ι :=
  if request.operation.isApply then
    put s i c [.rejected "Apply requires explicit user approval of the current proposal"]
  else enqueue s i c { request, signal, token := none }

def recordUserApproval (s : System F ι) (i : ι) (c : Controller F) (proposal : String) :
    System F ι :=
  match approvalOf c.bundle.document proposal with
  | .error error => put s i c [.rejected error]
  | .ok approval =>
    put { s with tokens := s.tokens + 1 } i
      { c with approvals := c.approvals ++ [(s.tokens, approval)] }
      [.approved s.tokens approval c.bundle]

def applyApprovedProposal (s : System F ι) (i : ι) (c : Controller F) (token : ℕ)
    (signal : Option ℕ) : System F ι :=
  let expired := "Proposal approval expired; review the current proposal again"
  match c.approvals.lookup token with
  | none => put s i c [.rejected expired]
  | some approval =>
    if approval.isCurrent c.bundle.document then
      enqueue s i c { request := approval.request, signal, token := some token }
    else put s i c [.rejected expired]

def reject (s : System F ι) (i : ι) (c : Controller F) (error : String) : System F ι :=
  put s i { c with running := .idle } [.rejected error]

def startNext (s : System F ι) (i : ι) (c : Controller F) : System F ι :=
  match c.running, c.queue with
  | .idle, operation :: rest =>
    match throwIfAborted s operation.signal with
    | .error error => reject s i { c with queue := rest } error
    | .ok () =>
      if operation.request.expectedRevision ≠ c.bundle.document.revision then
        reject s i { c with queue := rest }
          "Stale Study revision; inspect the current Study and retry"
      else
        put s i { c with queue := rest, running := .executing operation }
          [.executed operation c.bundle]
  | _, _ => s

def backendAnswered (s : System F ι) (i : ι) (c : Controller F)
    (answer : Except String (StudyBundle F)) : System F ι :=
  match c.running, answer with
  | .executing _, .error error => reject s i c error
  | .executing operation, .ok completed =>
    let aborted := if operation.request.operation.isPropose then .ok ()
      else throwIfAborted s operation.signal
    match aborted with
    | .error error => reject s i c error
    | .ok () => put s i { c with running := .committing operation completed } []
  | _, _ => s

def storeAnswered (s : System F ι) (i : ι) (c : Controller F) (fault : Option StoreFault) :
    System F ι :=
  match c.running, fault with
  | .committing operation completed, some fault =>
    put s i { c with running := .settled operation completed (.error fault.error) } []
  | .committing operation completed, none =>
    match write s.store operation.request.expectedRevision completed with
    | .error error =>
      put s i { c with running := .settled operation completed (.error error) } []
    | .ok store =>
      put { s with store } i { c with running := .settled operation completed (.ok ()) }
        [.stored operation c.bundle completed]
  | _, _ => s

/-- What stays of the approvals once an operation is durable. -/
def refreshed (approvals : List (ℕ × Approval)) (operation : StudyOperation F)
    (revision : ℕ) : List (ℕ × Approval) :=
  if operation.keepsApprovals then
    approvals.map fun (token, approval) => (token, { approval with revision })
  else []

def commitReturned (s : System F ι) (i : ι) (c : Controller F) : System F ι :=
  match c.running with
  | .settled _ _ (.error error) => reject s i c error
  | .settled operation completed (.ok ()) =>
    let approvals := refreshed c.approvals operation.request.operation completed.document.revision
    put s i { c with bundle := completed, running := .idle, approvals } [.completed operation]
  | _ => s

/-- A signal keeps its first reason. -/
def abort (s : System F ι) (signal : ℕ) (reason : String) : System F ι :=
  { s with aborted := Function.update s.aborted signal (some ((s.aborted signal).getD reason)) }

/-- What reaches a controller that has been opened. -/
def act (s : System F ι) (i : ι) (c : Controller F) : Event F → System F ι
  | .execute request signal => execute s i c request signal
  | .recordUserApproval proposal => recordUserApproval s i c proposal
  | .applyApprovedProposal token signal => applyApprovedProposal s i c token signal
  | .started => startNext s i c
  | .executed answer => backendAnswered s i c answer
  | .stored fault => storeAnswered s i c fault
  | .returned => commitReturned s i c
  | .abort signal reason => abort s signal reason
  | .opened _ => s

def step (s : System F ι) (label : ι × Event F) : System F ι :=
  match s.controllers label.1, label.2 with
  | some c, event => act s label.1 c event
  | none, .opened bundle => openStudy s label.1 bundle
  | none, .abort signal reason => abort s signal reason
  | none, _ => s

/-! ### Reading a log -/

/-- What one controller did. -/
def mine (i : ι) (log : List (ι × Entry F)) : List (Entry F) :=
  log.filterMap fun entry => if entry.1 = i then some entry.2 else none

@[simp] theorem mine_append (i : ι) (log more : List (ι × Entry F)) :
    mine i (log ++ more) = mine i log ++ mine i more :=
  List.filterMap_append ..

@[simp] theorem mine_self (i : ι) (entries : List (Entry F)) :
    mine i (entries.map fun entry => (i, entry)) = entries := by
  simp [mine]

theorem mine_other {i j : ι} (h : j ≠ i) (entries : List (Entry F)) :
    mine i (entries.map fun entry => (j, entry)) = [] := by
  simp [mine, h]

/-- The documents a controller was opened with and committed, oldest first. -/
def Entry.version : Entry F → Option (StudyBundle F)
  | .opened bundle => some bundle
  | .stored _ _ after => some after
  | _ => none

def versions (history : List (Entry F)) : List (StudyBundle F) := history.filterMap Entry.version

def Entry.changes : Entry F → Bool
  | .completed operation => !operation.request.operation.keepsApprovals
  | _ => false

/-- The commit of an operation that came with a token. -/
def Entry.spends (token : ℕ) : Entry F → Bool
  | .stored operation _ _ => operation.token = some token
  | _ => false

/-- The commit that the store has answered and the controller has not yet seen. -/
def Controller.inFlight (c : Controller F) : Option (StudyBundle F) :=
  match c.running with
  | .settled _ completed (.ok ()) => some completed
  | _ => none

/-- The operation is the apply of the recommendation that the token was handed out for. Where
`current` holds, the study has not changed since. -/
def Approved (history : List (Entry F)) (token : ℕ) (operation : StudyOperation F)
    (current : Prop) : Prop :=
  ∃ earlier later approval bundle,
    history = earlier ++ .approved token approval bundle :: later ∧
    bundle.document.recommendedState = some approval.state ∧
    operation = .apply approval.proposal approval.state approval.goal approval.base ∧
    (current → ∀ entry ∈ later, entry.changes = false)

theorem Approved.append {history : List (Entry F)} {token : ℕ} {operation : StudyOperation F}
    {current current' : Prop} (h : Approved history token operation current)
    {more : List (Entry F)}
    (hmore : current' → current ∧ ∀ entry ∈ more, entry.changes = false) :
    Approved (history ++ more) token operation current' := by
  obtain ⟨earlier, later, approval, bundle, rfl, hstate, hoperation, hunchanged⟩ := h
  refine ⟨earlier, later ++ more, approval, bundle, by simp, hstate, hoperation, ?_⟩
  intro hcurrent entry hmem
  obtain ⟨hold, hnew⟩ := hmore hcurrent
  rcases List.mem_append.mp hmem with hlater | hlast
  · exact hunchanged hold entry hlater
  · exact hnew entry hlast

theorem Approved.weaken {history : List (Entry F)} {token : ℕ} {operation : StudyOperation F}
    {current current' : Prop} (h : Approved history token operation current)
    (hcurrent : current' → current) : Approved history token operation current' := by
  obtain ⟨earlier, later, approval, bundle, hsplit, hstate, hoperation, hunchanged⟩ := h
  exact ⟨earlier, later, approval, bundle, hsplit, hstate, hoperation,
    fun h => hunchanged (hcurrent h)⟩

theorem Approved.isApply {history : List (Entry F)} {token : ℕ} {operation : StudyOperation F}
    {current : Prop} (h : Approved history token operation current) :
    operation.isApply = true ∧ operation.keepsApprovals = false := by
  obtain ⟨earlier, later, approval, bundle, -, -, rfl, -⟩ := h
  exact ⟨rfl, rfl⟩

theorem recommendedState_of_approvalOf {d : StudyDocument F} {proposal : String}
    {approval : Approval} (h : approvalOf d proposal = .ok approval) :
    d.recommendedState = some approval.state ∧ approval.revision = d.revision := by
  have hpresent : ∀ {field : Option String} {text : String}, present field = some text →
      field = some text := by
    intro field text hfield
    unfold present at hfield
    split at hfield
    · cases hfield
    · exact hfield
  unfold approvalOf at h
  dsimp only at h
  split at h
  · cases h
  · split at h
    · split at h
      · cases h
        exact ⟨hpresent ‹_›, rfl⟩
      · cases h
    · cases h

end StudyDocumentController

end Tellegen
