import Tellegen.StudyController

/-!
What holds of each controller over any run. Its history of entries is what its
document, its queue and its approvals rest on: an approval stays in the map
only while the study has not changed since its token was handed out, and an
operation that carries the token runs only then. Since a revision never
repeats, an operation queued before a change is stale after it.
-/

namespace Tellegen

variable {F : Type} {ι : Type} [DecidableEq ι]

namespace StudyDocumentController

/-! ### What a controller keeps -/

def Spent (history : List (Entry F)) (token : ℕ) : Prop := ∃ entry ∈ history, entry.spends token

def Running.operation : Running F → Option (Operation F)
  | .idle => none
  | .executing operation | .committing operation _ | .settled operation _ _ => some operation

/-- The operations a controller has yet to finish. -/
def Controller.operations (c : Controller F) : List (Operation F) :=
  c.running.operation.toList ++ c.queue

/-- The revision of a controller's last commit, seen or not. -/
def Controller.reached (c : Controller F) : ℕ :=
  c.bundle.document.revision + c.inFlight.toList.length

def Controller.Clearing (c : Controller F) : Prop :=
  ∃ operation completed, c.running = .settled operation completed (.ok ()) ∧
    operation.request.operation.keepsApprovals = false

/-- An apply comes with a token, and runs only if the study has not changed since the token was
handed out and the token has not been spent. -/
structure Bound (c : Controller F) (history : List (Entry F)) (tokens : ℕ)
    (operation : Operation F) : Prop where
  token : operation.request.operation.isApply = true → operation.token.isSome
  known : ∀ token, operation.token = some token → token < tokens
  past : ∀ token, operation.token = some token →
    operation.request.expectedRevision ≤ c.bundle.document.revision
  approved : ∀ token, operation.token = some token →
    Approved history token operation.request.operation
      (operation.request.expectedRevision = c.bundle.document.revision)
  unspent : ∀ token, operation.token = some token → Spent history token →
    operation.request.expectedRevision < c.reached

/-- What an entry says about the entries before it. -/
def Justified (history : List (Entry F)) : Entry F → Prop
  | .executed operation bundle =>
    operation.request.expectedRevision = bundle.document.revision ∧
    bundle ∈ (versions history).getLast? ∧
    (operation.request.operation.isApply = true → ∃ token, operation.token = some token ∧
      Approved history token operation.request.operation True)
  | .stored operation before after =>
    operation.request.expectedRevision = before.document.revision ∧
    after.document.revision = before.document.revision + 1 ∧
    before ∈ (versions history).getLast? ∧
    ∀ token, operation.token = some token →
      Approved history token operation.request.operation True
  | _ => True

structure Sound (c : Controller F) (history : List (Entry F)) (tokens : ℕ) : Prop where
  versions : ∃ older, versions history = older ++ c.bundle :: c.inFlight.toList
  justified : Machine.Grounded Justified history
  bound : ∀ operation ∈ c.operations, Bound c history tokens operation
  named : ∀ operation, c.running.operation = some operation →
    operation.request.expectedRevision = c.bundle.document.revision
  landed : ∀ completed, c.inFlight = some completed →
    completed.document.revision = c.bundle.document.revision + 1
  current : ∀ token approval, (token, approval) ∈ c.approvals →
    approval.revision = c.bundle.document.revision
  known : ∀ token approval, (token, approval) ∈ c.approvals → token < tokens
  approved : ∀ token approval, (token, approval) ∈ c.approvals →
    Approved history token (approval.request : StudyRequest F).operation True
  unspent : ∀ token approval, (token, approval) ∈ c.approvals → Spent history token → c.Clearing
  single : ∀ token, history.countP (Entry.spends token) ≤ 1
  spentKnown : ∀ token, Spent history token → token < tokens

section Sound

variable {c c' : Controller F} {history : List (Entry F)} {tokens : ℕ}

theorem spent_append {token : ℕ} {entry : Entry F} :
    Spent (history ++ [entry]) token ↔ Spent history token ∨ entry.spends token := by
  simp [Spent, or_and_right, exists_or]

theorem Bound.append {operation : Operation F} (h : Bound c history tokens operation)
    {entry : Entry F} (hchanges : entry.changes = false)
    (hspends : ∀ token, entry.spends token = false) :
    Bound c (history ++ [entry]) tokens operation where
  token := h.token
  known := h.known
  past := h.past
  approved token htoken :=
    (h.approved token htoken).append fun hcurrent => ⟨hcurrent, by simpa using hchanges⟩
  unspent token htoken hspent := by
    rw [spent_append, hspends token] at hspent
    exact h.unspent token htoken (by simpa using hspent)

theorem Bound.move {operation : Operation F} (h : Bound c history tokens operation)
    (hbundle : c'.bundle = c.bundle) (hflight : c'.inFlight = c.inFlight) :
    Bound c' history tokens operation where
  token := h.token
  known := h.known
  past := hbundle ▸ h.past
  approved := hbundle ▸ h.approved
  unspent token htoken hspent := by
    have hreached := h.unspent token htoken hspent
    simpa only [Controller.reached, hbundle, hflight] using hreached

theorem Sound.later {tokens' : ℕ} (h : Sound c history tokens) (hle : tokens ≤ tokens') :
    Sound c history tokens' where
  versions := h.versions
  justified := h.justified
  bound operation hmem :=
    let hbound := h.bound operation hmem
    { hbound with known := fun token htoken => (hbound.known token htoken).trans_le hle }
  named := h.named
  landed := h.landed
  current := h.current
  known token approval hmem := (h.known token approval hmem).trans_le hle
  approved := h.approved
  unspent := h.unspent
  single := h.single
  spentKnown token hspent := (h.spentKnown token hspent).trans_le hle

theorem Sound.move (h : Sound c history tokens) (hbundle : c'.bundle = c.bundle)
    (happrovals : c'.approvals = c.approvals) (hflight : c'.inFlight = c.inFlight)
    (hclearing : c.Clearing → c'.Clearing)
    (hoperations : ∀ operation ∈ c'.operations,
      operation ∈ c.operations ∨ Bound c history tokens operation)
    (hnamed : ∀ operation, c'.running.operation = some operation →
      operation.request.expectedRevision = c.bundle.document.revision) :
    Sound c' history tokens where
  versions := by
    rw [hbundle, hflight]
    exact h.versions
  justified := h.justified
  bound operation hmem := by
    rcases hoperations operation hmem with hold | hbound
    · exact (h.bound operation hold).move hbundle hflight
    · exact hbound.move hbundle hflight
  named := by
    rw [hbundle]
    exact hnamed
  landed := by
    rw [hbundle, hflight]
    exact h.landed
  current := by
    rw [hbundle, happrovals]
    exact h.current
  known := by
    rw [happrovals]
    exact h.known
  approved := by
    rw [happrovals]
    exact h.approved
  unspent token approval hmem hspent :=
    hclearing (h.unspent token approval (happrovals ▸ hmem) hspent)
  single := h.single
  spentKnown := h.spentKnown

theorem Sound.append (h : Sound c history tokens) {entry : Entry F}
    (hversion : entry.version = none) (hchanges : entry.changes = false)
    (hspends : ∀ token, entry.spends token = false) (hjustified : Justified history entry) :
    Sound c (history ++ [entry]) tokens where
  versions := by
    obtain ⟨older, hversions⟩ := h.versions
    exact ⟨older, by simp [StudyDocumentController.versions, hversion, ← hversions]⟩
  justified := h.justified.concat hjustified
  bound operation hmem := (h.bound operation hmem).append hchanges hspends
  named := h.named
  landed := h.landed
  current := h.current
  known := h.known
  approved token approval hmem :=
    (h.approved token approval hmem).append fun _ => ⟨trivial, by simpa using hchanges⟩
  unspent token approval hmem hspent := by
    rw [spent_append, hspends token] at hspent
    exact h.unspent token approval hmem (by simpa using hspent)
  single token := by
    rw [List.countP_append]
    simpa [hspends token] using h.single token
  spentKnown token hspent := by
    rw [spent_append, hspends token] at hspent
    exact h.spentKnown token (by simpa using hspent)

theorem Sound.reject (h : Sound c history tokens) (error : String) :
    Sound c (history ++ [.rejected error]) tokens :=
  h.append rfl rfl (fun _ => rfl) trivial

theorem Sound.abandon (h : Sound c history tokens) (hflight : c.inFlight = none)
    (error : String) {queue : List (Operation F)} (hqueue : ∀ operation ∈ queue, operation ∈ c.queue) :
    Sound { c with running := .idle, queue } (history ++ [.rejected error]) tokens := by
  refine (h.reject error).move rfl rfl ?_ ?_ ?_ ?_
  · simpa [Controller.inFlight] using hflight.symm
  · rintro ⟨operation, completed, hrunning, -⟩
    simp [Controller.inFlight, hrunning] at hflight
  · intro operation hmem
    have hold : operation ∈ queue := by simpa [Controller.operations, Running.operation] using hmem
    exact .inl (by simp [Controller.operations, hqueue operation hold])
  · intro operation hrunning
    simp [Running.operation] at hrunning

theorem sound_opened (bundle : StudyBundle F) (tokens : ℕ) :
    Sound { bundle, running := .idle, queue := [], approvals := [] } [.opened bundle] tokens where
  versions := ⟨[], by simp [StudyDocumentController.versions, Entry.version, Controller.inFlight]⟩
  justified := by
    have hopened : Justified [] (.opened bundle) := trivial
    simpa using Machine.grounded_nil.concat hopened
  bound operation hmem := by simp [Controller.operations, Running.operation] at hmem
  named operation hrunning := by simp [Running.operation] at hrunning
  landed completed hflight := by simp [Controller.inFlight] at hflight
  current token approval hmem := by simp at hmem
  known token approval hmem := by simp at hmem
  approved token approval hmem := by simp at hmem
  unspent token approval hmem := by simp at hmem
  single token := by simp [Entry.spends]
  spentKnown token hspent := by simp [Spent, Entry.spends] at hspent

/-- A fresh token is spent nowhere, and the study has not changed since it was handed out. -/
theorem Sound.approve (h : Sound c history tokens) {approval : Approval} {proposal : String}
    (happroval : approvalOf c.bundle.document proposal = .ok approval) :
    Sound { c with approvals := c.approvals ++ [(tokens, approval)] }
      (history ++ [.approved tokens approval c.bundle]) (tokens + 1) := by
  obtain ⟨hstate, hrevision⟩ := recommendedState_of_approvalOf happroval
  have hlater : Sound c (history ++ [.approved tokens approval c.bundle]) (tokens + 1) :=
    (h.append rfl rfl (fun _ => rfl) (by trivial)).later (Nat.le_succ tokens)
  have hnew : ∀ token other, (token, other) ∈ c.approvals ++ [(tokens, approval)] →
      (token, other) ∈ c.approvals ∨ token = tokens ∧ other = approval := by
    intro token other hmem
    simpa using hmem
  have hfresh : ¬ Spent (history ++ [.approved tokens approval c.bundle]) tokens := by
    intro hspent
    have hold : Spent history tokens := by simpa [spent_append, Entry.spends] using hspent
    exact absurd (h.spentKnown tokens hold) (Nat.lt_irrefl tokens)
  refine { hlater with bound := ?_, current := ?_, known := ?_, approved := ?_, unspent := ?_ }
  · exact fun operation hmem => (hlater.bound operation hmem).move rfl rfl
  · intro token other hmem
    rcases hnew token other hmem with hold | ⟨rfl, rfl⟩
    · exact hlater.current token other hold
    · exact hrevision
  · intro token other hmem
    rcases hnew token other hmem with hold | ⟨rfl, rfl⟩
    · exact hlater.known token other hold
    · exact Nat.lt_succ_self token
  · intro token other hmem
    rcases hnew token other hmem with hold | ⟨rfl, rfl⟩
    · exact hlater.approved token other hold
    · exact ⟨history, [], other, c.bundle, by simp, hstate, rfl, fun _ => by simp⟩
  · intro token other hmem hspent
    rcases hnew token other hmem with hold | ⟨rfl, rfl⟩
    · exact hlater.unspent token other hold hspent
    · exact absurd hspent hfresh

theorem Sound.enqueue (h : Sound c history tokens) {operation : Operation F}
    (hbound : Bound c history tokens operation) :
    Sound { c with queue := c.queue ++ [operation] } history tokens := by
  refine h.move rfl rfl rfl id ?_ h.named
  intro other hmem
  simp only [Controller.operations, List.mem_append, List.mem_singleton] at hmem ⊢
  rcases hmem with hrunning | hqueued | rfl
  · exact .inl (.inl hrunning)
  · exact .inl (.inr hqueued)
  · exact .inr hbound

theorem Sound.bound_apply (h : Sound c history tokens) {token : ℕ} {approval : Approval}
    (hmem : (token, approval) ∈ c.approvals) (signal : Option ℕ) :
    Bound c history tokens { request := approval.request, signal, token := some token } where
  token _ := rfl
  known other htoken := by
    obtain rfl : token = other := by simpa using htoken
    exact h.known token approval hmem
  past _ _ := (h.current token approval hmem).le
  approved other htoken := by
    obtain rfl : token = other := by simpa using htoken
    exact (h.approved token approval hmem).weaken fun _ => trivial
  unspent other htoken hspent := by
    obtain rfl : token = other := by simpa using htoken
    obtain ⟨operation, completed, hrunning, -⟩ := h.unspent token approval hmem hspent
    have hflight : c.inFlight = some completed := by simp [Controller.inFlight, hrunning]
    have hcurrent := h.current token approval hmem
    simp [Controller.reached, hflight, Approval.request, hcurrent]

theorem Sound.start (h : Sound c history tokens) {operation : Operation F}
    {rest : List (Operation F)} (hrunning : c.running = .idle) (hqueue : c.queue = operation :: rest)
    (hrevision : operation.request.expectedRevision = c.bundle.document.revision) :
    Sound { c with queue := rest, running := .executing operation }
      (history ++ [.executed operation c.bundle]) tokens := by
  have hflight : c.inFlight = none := by simp [Controller.inFlight, hrunning]
  have hbound : Bound c history tokens operation :=
    h.bound operation (by simp [Controller.operations, hqueue])
  have hjustified : Justified history (.executed operation c.bundle) := by
    obtain ⟨older, hversions⟩ := h.versions
    refine ⟨hrevision, by simp [hversions, hflight], fun happly => ?_⟩
    obtain ⟨token, htoken⟩ := Option.isSome_iff_exists.mp (hbound.token happly)
    refine ⟨token, htoken, ?_⟩
    exact (hbound.approved token htoken).weaken fun _ => hrevision
  refine (h.append rfl rfl (fun _ => rfl) hjustified).move rfl rfl ?_ ?_ ?_ ?_
  · exact hflight.symm
  · rintro ⟨operation, completed, hsettled, -⟩
    simp [hrunning] at hsettled
  · intro other hmem
    refine .inl ?_
    simpa [Controller.operations, Running.operation, hrunning, hqueue] using hmem
  · intro other hother
    obtain rfl : operation = other := by simpa [Running.operation] using hother
    exact hrevision

/-- The store has taken the commit: its token is spent, and approvals of an apply are about to
be dropped. -/
theorem Sound.store (h : Sound c history tokens) {operation : Operation F}
    {completed : StudyBundle F} (hrunning : c.running = .committing operation completed)
    (hrevision : completed.document.revision = operation.request.expectedRevision + 1) :
    Sound { c with running := .settled operation completed (.ok ()) }
      (history ++ [.stored operation c.bundle completed]) tokens := by
  have hflight : c.inFlight = none := by simp [Controller.inFlight, hrunning]
  have hnamed : operation.request.expectedRevision = c.bundle.document.revision :=
    h.named operation (by simp [Running.operation, hrunning])
  have hbound : Bound c history tokens operation :=
    h.bound operation (by simp [Controller.operations, Running.operation, hrunning])
  have hfresh : ∀ token, operation.token = some token → ¬ Spent history token := by
    intro token htoken hspent
    have hpast := hbound.unspent token htoken hspent
    simp [Controller.reached, hflight, hnamed] at hpast
  have hspends : ∀ token, (Entry.stored operation c.bundle completed).spends token = true ↔
      operation.token = some token := by
    simp [Entry.spends]
  constructor
  case versions =>
    obtain ⟨older, hversions⟩ := h.versions
    refine ⟨older, ?_⟩
    rw [hflight] at hversions
    simp [StudyDocumentController.versions, Entry.version, Controller.inFlight] at hversions ⊢
    simp [hversions]
  case justified =>
    obtain ⟨older, hversions⟩ := h.versions
    refine h.justified.concat ⟨hnamed, hnamed ▸ hrevision, by simp [hversions, hflight], ?_⟩
    exact fun token htoken => (hbound.approved token htoken).weaken fun _ => hnamed
  case bound =>
    intro other hmem
    have hother : Bound c history tokens other :=
      h.bound other (by simpa [Controller.operations, Running.operation, hrunning] using hmem)
    refine { token := hother.token, known := hother.known, past := hother.past, approved := ?_
             unspent := ?_ }
    · exact fun token htoken => (hother.approved token htoken).append fun hcurrent =>
        ⟨hcurrent, by simp [Entry.changes]⟩
    · intro token htoken _
      have hpast := hother.past token htoken
      simp [Controller.reached, Controller.inFlight]
      omega
  case named =>
    intro other hother
    exact h.named other (by simpa [Running.operation, hrunning] using hother)
  case landed =>
    intro other hother
    obtain rfl : completed = other := by simpa [Controller.inFlight] using hother
    simp [hrevision, hnamed]
  case current => exact h.current
  case known => exact h.known
  case approved =>
    exact fun token approval hmem => (h.approved token approval hmem).append fun _ =>
      ⟨trivial, by simp [Entry.changes]⟩
  case unspent =>
    intro token approval hmem hspent
    rcases spent_append.mp hspent with hold | hnew
    · obtain ⟨other, result, hsettled, -⟩ := h.unspent token approval hmem hold
      simp [hrunning] at hsettled
    · have happly := (hbound.approved token ((hspends token).mp hnew)).isApply
      exact ⟨operation, completed, rfl, happly.2⟩
  case single =>
    intro token
    rw [List.countP_append, List.countP_singleton]
    split
    case isTrue hnew =>
      have hnone : history.countP (Entry.spends token) = 0 := by
        refine List.countP_eq_zero.mpr fun entry hentry hspent => ?_
        exact hfresh token ((hspends token).mp hnew) ⟨entry, hentry, hspent⟩
      rw [hnone]
    case isFalse => exact h.single token
  case spentKnown =>
    intro token hspent
    rcases spent_append.mp hspent with hold | hnew
    · exact h.spentKnown token hold
    · exact hbound.known token ((hspends token).mp hnew)

theorem mem_refreshed {approvals : List (ℕ × Approval)} {operation : StudyOperation F}
    {revision token : ℕ} {approval : Approval}
    (h : (token, approval) ∈ refreshed approvals operation revision) :
    operation.keepsApprovals = true ∧
      ∃ old, (token, old) ∈ approvals ∧ approval = { old with revision } := by
  unfold refreshed at h
  split at h
  case isTrue hkeeps =>
    obtain ⟨⟨other, old⟩, hmem, hsame⟩ := List.mem_map.mp h
    simp only [Prod.mk.injEq] at hsame
    obtain ⟨rfl, rfl⟩ := hsame
    exact ⟨hkeeps, old, hmem, rfl⟩
  case isFalse => simp at h

/-- The commit is published. Operations queued under the old revision have become stale. -/
theorem Sound.complete (h : Sound c history tokens) {operation : Operation F}
    {completed : StudyBundle F} (hrunning : c.running = .settled operation completed (.ok ())) :
    Sound { c with bundle := completed, running := .idle
                   approvals := refreshed c.approvals operation.request.operation
                     completed.document.revision }
      (history ++ [.completed operation]) tokens := by
  have hflight : c.inFlight = some completed := by simp [Controller.inFlight, hrunning]
  have hrevision := h.landed completed hflight
  have hspent : ∀ token, Spent (history ++ [.completed operation]) token ↔ Spent history token := by
    intro token
    simp [spent_append, Entry.spends]
  constructor
  case versions =>
    obtain ⟨older, hversions⟩ := h.versions
    refine ⟨older ++ [c.bundle], ?_⟩
    rw [hflight] at hversions
    simp [StudyDocumentController.versions, Entry.version, Controller.inFlight] at hversions ⊢
    simp [hversions, Entry.version]
  case justified => exact h.justified.concat trivial
  case bound =>
    intro other hmem
    have hqueued : other ∈ c.operations := by
      have hqueue : other ∈ c.queue := by
        simpa [Controller.operations, Running.operation] using hmem
      simp [Controller.operations, hqueue]
    have hother : Bound c history tokens other := h.bound other hqueued
    constructor
    case token => exact hother.token
    case known => exact hother.known
    case past =>
      intro token htoken
      exact (hother.past token htoken).trans (hrevision ▸ Nat.le_succ _)
    case approved =>
      intro token htoken
      have hpast := hother.past token htoken
      refine (hother.approved token htoken).append fun hcurrent => absurd hcurrent ?_
      dsimp only
      omega
    case unspent =>
      intro token htoken hnew
      have hreached := hother.unspent token htoken ((hspent token).mp hnew)
      simpa [Controller.reached, Controller.inFlight, hrunning, hrevision] using hreached
  case named => simp [Running.operation]
  case landed => simp [Controller.inFlight]
  case current =>
    intro token approval hmem
    obtain ⟨-, old, -, rfl⟩ := mem_refreshed hmem
    rfl
  case known =>
    intro token approval hmem
    obtain ⟨-, old, hold, -⟩ := mem_refreshed hmem
    exact h.known token old hold
  case approved =>
    intro token approval hmem
    obtain ⟨hkeeps, old, hold, rfl⟩ := mem_refreshed hmem
    exact (h.approved token old hold).append fun _ => ⟨trivial, by simp [Entry.changes, hkeeps]⟩
  case unspent =>
    intro token approval hmem hnew
    obtain ⟨hkeeps, old, hold, rfl⟩ := mem_refreshed hmem
    obtain ⟨other, result, hsettled, hclears⟩ := h.unspent token old hold ((hspent token).mp hnew)
    rw [hrunning] at hsettled
    cases hsettled
    simp [hkeeps] at hclears
  case single =>
    intro token
    rw [List.countP_append]
    simpa [Entry.spends] using h.single token
  case spentKnown => exact fun token hnew => h.spentKnown token ((hspent token).mp hnew)

end Sound

/-! ### Runs -/

section System

variable {s : System F ι}

def Inv (s : System F ι) : Prop :=
  ∀ i, match s.controllers i with
    | none => mine i s.log = []
    | some c => Sound c (mine i s.log) s.tokens

theorem Inv.sound (h : Inv s) {i : ι} {c : Controller F} (hc : s.controllers i = some c) :
    Sound c (mine i s.log) s.tokens := by
  have hi := h i
  rwa [hc] at hi

theorem Inv.put (h : Inv s) {i : ι} {c : Controller F} {entries : List (Entry F)}
    (hsound : Sound c (mine i s.log ++ entries) s.tokens) : Inv (put s i c entries) := by
  intro j
  by_cases hj : j = i
  · subst hj
    simpa [StudyDocumentController.put] using hsound
  · have hother : mine j (entries.map fun entry => (i, entry)) = [] :=
      mine_other (fun h => hj h.symm) entries
    simpa [StudyDocumentController.put, hj, hother] using h j

theorem write_eq_ok {store store' : String → Option (StudyBundle F)} {expected : ℕ}
    {bundle : StudyBundle F} (h : write store expected bundle = .ok store') :
    (∃ saved, store bundle.document.id = some saved ∧ saved.document.revision = expected) ∧
      bundle.document.revision = expected + 1 ∧
      store' = Function.update store bundle.document.id (some bundle) := by
  unfold write at h
  split at h
  · cases h
  · rename_i hfits
    rw [not_or, not_not, not_not] at hfits
    obtain ⟨hsaved, hrevision⟩ := hfits
    cases h
    exact ⟨by simpa using hsaved, hrevision, rfl⟩

theorem Inv.execute (h : Inv s) {i : ι} {c : Controller F} (hc : s.controllers i = some c)
    (request : StudyRequest F) (signal : Option ℕ) :
    Inv (execute s i c request signal) := by
  have hsound := h.sound hc
  unfold StudyDocumentController.execute
  split
  case isTrue => exact h.put (hsound.reject _)
  case isFalse happly =>
    refine h.put ?_
    rw [List.append_nil]
    refine hsound.enqueue ?_
    constructor <;> simp [happly]

theorem Inv.recordUserApproval (h : Inv s) {i : ι} {c : Controller F}
    (hc : s.controllers i = some c) (proposal : String) :
    Inv (recordUserApproval s i c proposal) := by
  have hsound := h.sound hc
  unfold StudyDocumentController.recordUserApproval
  split
  case h_1 => exact h.put (hsound.reject _)
  case h_2 approval happroval =>
    have hlater : Inv { s with tokens := s.tokens + 1 } := by
      intro j
      have hj := h j
      dsimp only
      split
      case h_1 hnone => rwa [hnone] at hj
      case h_2 other hsome =>
        rw [hsome] at hj
        exact hj.later (Nat.le_succ _)
    exact hlater.put (hsound.approve happroval)

theorem Inv.applyApprovedProposal (h : Inv s) {i : ι} {c : Controller F}
    (hc : s.controllers i = some c) (token : ℕ) (signal : Option ℕ) :
    Inv (applyApprovedProposal s i c token signal) := by
  have hsound := h.sound hc
  unfold StudyDocumentController.applyApprovedProposal
  dsimp only
  split
  case h_1 => exact h.put (hsound.reject _)
  case h_2 approval hlookup =>
    split
    · obtain ⟨before, after, hsplit, -⟩ := List.lookup_eq_some_iff.mp hlookup
      refine h.put ?_
      rw [List.append_nil]
      exact hsound.enqueue (hsound.bound_apply (by simp [hsplit]) signal)
    · exact h.put (hsound.reject _)

theorem Inv.startNext (h : Inv s) {i : ι} {c : Controller F} (hc : s.controllers i = some c) :
    Inv (startNext s i c) := by
  have hsound := h.sound hc
  unfold StudyDocumentController.startNext
  split
  case h_1 operation rest hrunning hqueue =>
    have hflight : c.inFlight = none := by simp [Controller.inFlight, hrunning]
    have hreject : ∀ error, Inv (reject s i { c with queue := rest } error) := fun error =>
      h.put (hsound.abandon hflight error fun other hmem => by simp [hqueue, hmem])
    split
    · exact hreject _
    · split
      · exact hreject _
      · rename_i hrevision
        exact h.put (hsound.start hrunning hqueue (not_not.mp hrevision))
  case h_2 => exact h

theorem Inv.wait (h : Inv s) {i : ι} {c : Controller F} (hc : s.controllers i = some c)
    {running : Running F} (hoperation : running.operation = c.running.operation)
    (hflight : c.inFlight = none)
    (hflight' : ({ c with running } : Controller F).inFlight = none) :
    Inv (StudyDocumentController.put s i { c with running } []) := by
  have hsound := h.sound hc
  refine h.put ?_
  rw [List.append_nil]
  refine hsound.move rfl rfl (hflight'.trans hflight.symm) ?_ ?_ ?_
  · rintro ⟨operation, completed, hrunning, -⟩
    simp [Controller.inFlight, hrunning] at hflight
  · intro operation hmem
    exact .inl (by simpa [Controller.operations, hoperation] using hmem)
  · intro operation hrunning
    exact hsound.named operation (hoperation ▸ hrunning)

theorem Inv.reject (h : Inv s) {i : ι} {c : Controller F} (hc : s.controllers i = some c)
    (hflight : c.inFlight = none) (error : String) : Inv (reject s i c error) :=
  h.put ((h.sound hc).abandon hflight error fun _ hmem => hmem)

theorem Inv.backendAnswered (h : Inv s) {i : ι} {c : Controller F}
    (hc : s.controllers i = some c) (answer : Except String (StudyBundle F)) :
    Inv (backendAnswered s i c answer) := by
  unfold StudyDocumentController.backendAnswered
  split
  case h_1 operation error hrunning =>
    exact h.reject hc (by simp [Controller.inFlight, hrunning]) error
  case h_2 operation completed hrunning =>
    have hflight : c.inFlight = none := by simp [Controller.inFlight, hrunning]
    dsimp only
    generalize (if operation.request.operation.isPropose then .ok ()
      else throwIfAborted s operation.signal : Except String Unit) = aborted
    split
    · exact h.reject hc hflight _
    · exact h.wait hc (by simp [Running.operation, hrunning]) hflight (by simp [Controller.inFlight])
  case h_3 => exact h

theorem Inv.storeAnswered (h : Inv s) {i : ι} {c : Controller F}
    (hc : s.controllers i = some c) (fault : Option StoreFault) :
    Inv (storeAnswered s i c fault) := by
  unfold StudyDocumentController.storeAnswered
  split
  case h_1 operation completed fault hrunning =>
    exact h.wait hc (by simp [Running.operation, hrunning])
      (by simp [Controller.inFlight, hrunning]) (by simp [Controller.inFlight])
  case h_2 operation completed hrunning =>
    split
    case h_1 error hwrite =>
      exact h.wait hc (by simp [Running.operation, hrunning])
        (by simp [Controller.inFlight, hrunning]) (by simp [Controller.inFlight])
    case h_2 store hwrite =>
      have hstored : Inv { s with store } := h
      exact hstored.put ((h.sound hc).store hrunning (write_eq_ok hwrite).2.1)
  case h_3 => exact h

theorem Inv.commitReturned (h : Inv s) {i : ι} {c : Controller F}
    (hc : s.controllers i = some c) : Inv (commitReturned s i c) := by
  unfold StudyDocumentController.commitReturned
  split
  case h_1 hrunning => exact h.reject hc (by simp [Controller.inFlight, hrunning]) _
  case h_2 operation completed hrunning => exact h.put ((h.sound hc).complete hrunning)
  case h_3 => exact h

theorem Inv.openStudy (h : Inv s) {i : ι} (hnone : s.controllers i = none)
    (bundle : StudyBundle F) : Inv (openStudy s i bundle) := by
  have hfirst : mine i s.log = [] := by
    have hi := h i
    rwa [hnone] at hi
  unfold StudyDocumentController.openStudy
  split
  · exact h
  · split
    · refine h.put ?_
      rw [hfirst]
      exact sound_opened bundle s.tokens
    · exact h

theorem Inv.act (h : Inv s) {i : ι} {c : Controller F} (hc : s.controllers i = some c)
    (event : Event F) : Inv (act s i c event) := by
  cases event with
  | execute request signal => exact h.execute hc request signal
  | recordUserApproval proposal => exact h.recordUserApproval hc proposal
  | applyApprovedProposal token signal => exact h.applyApprovedProposal hc token signal
  | started => exact h.startNext hc
  | executed answer => exact h.backendAnswered hc answer
  | stored fault => exact h.storeAnswered hc fault
  | returned => exact h.commitReturned hc
  | opened | abort => exact h

theorem step_cases (s : System F ι) (label : ι × Event F) :
    (∃ aborted, step s label = { s with aborted }) ∨
    (∃ bundle, s.controllers label.1 = none ∧ step s label = openStudy s label.1 bundle) ∨
    ∃ c event, s.controllers label.1 = some c ∧ step s label = act s label.1 c event := by
  obtain ⟨i, event⟩ := label
  cases hc : s.controllers i with
  | none =>
    cases event with
    | opened bundle => exact .inr (.inl ⟨bundle, rfl, by simp [step, hc]⟩)
    | abort signal reason =>
      exact .inl ⟨(abort s signal reason).aborted, by simp [step, hc, abort]⟩
    | _ => exact .inl ⟨s.aborted, by simp [step, hc]⟩
  | some c => exact .inr (.inr ⟨c, event, rfl, by simp [step, hc]⟩)

theorem Inv.step (h : Inv s) (label : ι × Event F) : Inv (step s label) := by
  rcases step_cases s label with ⟨aborted, hstep⟩ | ⟨bundle, hnone, hstep⟩ | ⟨c, event, hc, hstep⟩
  · rw [hstep]
    exact h
  · rw [hstep]
    exact h.openStudy hnone bundle
  · rw [hstep]
    exact h.act hc event

theorem inv_run (store : String → Option (StudyBundle F)) (schedule : List (ι × Event F)) :
    Inv (Machine.run step (start store) schedule) :=
  Machine.run_invariant (fun _ label h => h.step label) (fun _ => rfl) schedule

end System

end StudyDocumentController

end Tellegen
