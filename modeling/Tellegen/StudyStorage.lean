import Tellegen.Lib.Machine
import Tellegen.Portability

/-!
The file store of a study. A writer makes the lock file, checks the stored
document, writes a temporary file, renames it over the study file and removes
the lock. Each disk operation is one step, which may fail; the steps of any
number of writers interleave, and a writer may stop anywhere. Looking whether
the study file is there is taken to be exact.

`log` records every replacement of the study file, newest first, with the text
it replaced. It is read by no writer.
-/

open Outcome

set_option linter.unusedSectionVars false

namespace Tellegen

variable {F : Type} [Binary64 F] {ι : Type} [DecidableEq ι]

namespace FileStudyStore

structure StorePath where
  file : String
  parent : String
  lock : String

inductive Call (F : Type) where
  | create (bundle : StudyBundle F)
  | commit (expectedRevision : ℕ) (bundle : StudyBundle F)

def Call.bundle : Call F → StudyBundle F
  | .create bundle | .commit _ bundle => bundle

/-- Where a writer stands, named after the disk operation it is about to do. -/
inductive Writer where
  | entered
  | locking
  | signing
  | opening
  | reading
  | writing
  | staging (text : String)
  | moving (text : String)
  | syncing
  | releasing (result : Result Unit)
  | returned (result : Result Unit)
  deriving DecidableEq

structure Entry (ι : Type) where
  writer : ι
  before : Option String
  after : String

structure Store (ι : Type) where
  lock : Option ι
  target : Option String
  writer : ι → Writer
  log : List (Entry ι)

/-- A study file, or none, that nobody is writing. -/
def start (target : Option String) : Store ι :=
  { lock := none, target, writer := fun _ => .entered, log := [] }

/-! ### Messages -/

def noDirectory (path : StorePath) : String :=
  "Study directory " ++ path.parent ++ " does not exist; create it or select another destination"

def cannotLock (path : StorePath) (error : String) : String :=
  "cannot lock Study " ++ path.file ++ ": " ++ error ++ ". If a previous writer stopped, verify " ++
    "it is no longer running before removing " ++ path.lock

def cannotRead (path : StorePath) (error : String) : String :=
  "cannot read Study " ++ path.file ++ ": " ++ error

def notSaved (path : StorePath) (error : String) : String :=
  "Study was not saved to " ++ path.file ++ ": " ++ error ++
    ". Free disk space or choose a writable destination, then retry"

/-- The study file has been replaced, and may not survive a power failure. -/
def unconfirmed (path : StorePath) (error : String) : String :=
  "Study file was written but directory durability could not be confirmed: " ++ error ++
    ". Reload " ++ path.file ++ " before retrying"

/-! ### Steps -/

/-- The checks of `commit` on the text it has read. -/
def checkCommit (engine : Engine F) (expectedRevision : ℕ) (bundle : StudyBundle F)
    (text : String) : Result Unit := do
  let current ← StudyBundle.importText engine text
  lift (current.checkRevision expectedRevision)
  let mismatch := "saved Study identity or next revision does not match the current file"
  refuse (current.document.id ≠ bundle.document.id) mismatch
  refuse (expectedRevision + 1 ≥ 2 ^ 64) "Study revision exhausted"
  refuse (bundle.document.revision ≠ expectedRevision + 1) mismatch

def goto (s : Store ι) (i : ι) (writer : Writer) : Store ι :=
  { s with writer := Function.update s.writer i writer }

def fail (s : Store ι) (i : ι) (message : String) : Store ι :=
  goto s i (.releasing (.error (.error message)))

/-- A disk operation that has no effect on the lock or the study file. -/
def attempt (s : Store ι) (i : ι) (io : Option String) (next : Writer)
    (message : String → String) : Store ι :=
  match io with
  | none => goto s i next
  | some error => fail s i (message error)

/-- One step of a writer. `io` is the error of its disk operation, if it fails. -/
def step (engine : Engine F) (path : StorePath) (calls : ι → Call F) (s : Store ι) :
    ι × Option String → Store ι
  | (i, io) => match s.writer i with
    | .entered =>
      match io with
      | none => goto s i .locking
      | some _ => goto s i (.returned (.error (.error (noDirectory path))))
    | .locking =>
      match s.lock, io with
      | none, none => goto { s with lock := some i } i .signing
      | _, some error => goto s i (.returned (.error (.error (cannotLock path error))))
      | some _, none => goto s i (.returned (.error (.error (cannotLock path "File exists"))))
    | .signing => attempt s i io .opening ("cannot write Study lock: " ++ ·)
    | .opening =>
      match calls i with
      | .create _ =>
        if s.target.isSome then
          fail s i "Study file already exists; load it or select a new path"
        else goto s i .writing
      | .commit _ _ =>
        match s.target with
        | none => fail s i (cannotRead path "No such file or directory")
        | some text =>
          if text.utf8ByteSize > maxBundleBytes then
            fail s i "Study file exceeds 512 MiB; use a smaller branch bundle"
          else attempt s i io .reading (cannotRead path)
    | .reading =>
      match calls i, s.target, io with
      | .commit expectedRevision bundle, some text, none =>
        match checkCommit engine expectedRevision bundle text with
        | .error failure => goto s i (.releasing (.error failure))
        | .ok () => goto s i .writing
      | _, _, io => fail s i (cannotRead path (io.getD "No such file or directory"))
    | .writing =>
      match StudyBundle.exportText engine (calls i).bundle with
      | .error failure => goto s i (.releasing (.error failure))
      | .ok text => goto s i (.staging text)
    | .staging text => attempt s i io (.moving text) (notSaved path)
    | .moving text =>
      match io with
      | none =>
        goto { s with
          target := some text
          log := { writer := i, before := s.target, after := text } :: s.log } i .syncing
      | some error => fail s i (notSaved path error)
    | .syncing => attempt s i io (.releasing (.ok ())) (unconfirmed path)
    | .releasing result =>
      goto { s with lock := if io.isNone then none else s.lock } i (.returned result)
    | .returned _ => s

/-! ### Justified replacements -/

/-- A replacement that its call allows: of no file by `create`, and by `commit`
of the document it was based on by its next revision. -/
inductive Justified (engine : Engine F) : Call F → Option String → String → Prop
  | create {bundle text} (hexport : StudyBundle.exportText engine bundle = .ok text) :
      Justified engine (.create bundle) none text
  | commit {bundle old current text}
      (hload : StudyBundle.importText engine old = .ok current)
      (hid : bundle.document.id = current.document.id)
      (hrevision : bundle.document.revision = current.document.revision + 1)
      (hexport : StudyBundle.exportText engine bundle = .ok text) :
      Justified engine (.commit current.document.revision bundle) (some old) text

theorem Justified.exports {engine : Engine F} {call : Call F} {before : Option String}
    {after : String} (h : Justified engine call before after) :
    StudyBundle.exportText engine call.bundle = .ok after := by
  cases h with
  | create hexport => exact hexport
  | commit _ _ _ hexport => exact hexport

/-- The log accounts for every document ever stored. -/
def Linked (initial : Option String) : List (Entry ι) → Option String → Prop
  | [], now => now = initial
  | entry :: rest, now => now = some entry.after ∧ Linked initial rest entry.before

/-- The texts the study file has held. -/
def stored (initial : Option String) (log : List (Entry ι)) : List String :=
  initial.toList ++ log.map (·.after)

section Log

variable {engine : Engine F} {calls : ι → Call F} {initial : Option String}

theorem Linked.mem_stored {log : List (Entry ι)} {now : Option String}
    (h : Linked initial log now) {text : String} (hnow : now = some text) :
    text ∈ stored initial log := by
  cases log with
  | nil =>
    have hinitial : now = initial := h
    simp [stored, ← hinitial, hnow]
  | cons entry rest =>
    have hafter := h.1
    rw [hnow] at hafter
    cases hafter
    simp [stored]

theorem Linked.eq_nil {log : List (Entry ι)} (h : Linked initial log none) :
    log = [] ∧ initial = none := by
  cases log with
  | nil => exact ⟨rfl, h.symm⟩
  | cons entry rest => cases h.1

theorem Linked.identity (hfaithful : engine.Faithful) (log : List (Entry ι)) (now : Option String)
    (h : Linked initial log now)
    (hlog : ∀ entry ∈ log, Justified engine (calls entry.writer) entry.before entry.after) :
    ∃ id, ∀ text ∈ stored initial log, ∀ document,
      StudyBundle.importText engine text = .ok document → document.document.id = id := by
  induction log generalizing now with
  | nil =>
    cases initial with
    | none => exact ⟨"", by simp [stored]⟩
    | some text =>
      cases hload : StudyBundle.importText engine text with
      | error failure => exact ⟨"", by simp [stored, hload]⟩
      | ok document => exact ⟨document.document.id, by simp [stored, hload]⟩
  | cons entry rest ih =>
    obtain ⟨id, hid⟩ := ih entry.before h.2 fun other hother => hlog other (by simp [hother])
    have hjustified := hlog entry (by simp)
    have hexport := hjustified.exports
    have hmem {text : String} : text ∈ stored initial (entry :: rest) ↔
        text ∈ stored initial rest ∨ text = entry.after := by
      simp only [stored, List.map_cons, List.mem_append, List.mem_cons]
      tauto
    generalize hcall : calls entry.writer = call at hjustified hexport
    generalize hbefore : entry.before = before at hjustified
    generalize hafter : entry.after = after at hjustified hexport hmem
    cases hjustified with
    | @create bundle _ _ =>
      obtain ⟨rfl, rfl⟩ := (hbefore ▸ h.2).eq_nil
      refine ⟨bundle.document.id, ?_⟩
      intro text htext document hload
      rcases hmem.mp htext with hnone | rfl
      · simp [stored] at hnone
      · exact (StudyBundle.importText_identity hfaithful hexport hload).1
    | @commit bundle old current _ hcurrent hsame _ _ =>
      refine ⟨id, ?_⟩
      intro text htext document hload
      rcases hmem.mp htext with hold | rfl
      · exact hid text hold document hload
      · rw [(StudyBundle.importText_identity hfaithful hexport hload).1]
        exact hsame.trans (hid old (h.2.mem_stored hbefore) current hcurrent)

def revision (calls : ι → Call F) (entry : Entry ι) : ℕ :=
  (calls entry.writer).bundle.document.revision

theorem Linked.increasing (hfaithful : engine.Faithful) (log : List (Entry ι)) (now : Option String)
    (h : Linked initial log now)
    (hlog : ∀ entry ∈ log, Justified engine (calls entry.writer) entry.before entry.after) :
    log.Pairwise fun newer older => revision calls older < revision calls newer := by
  induction log generalizing now with
  | nil => exact .nil
  | cons entry rest ih =>
    have hrest := ih entry.before h.2 fun other hother => hlog other (by simp [hother])
    refine .cons ?_ hrest
    cases rest with
    | nil => simp
    | cons previous older =>
      have hbefore : entry.before = some previous.after := h.2.1
      have hjustified := hlog entry (by simp)
      have hexport := (hlog previous (by simp)).exports
      have hstep : revision calls entry = revision calls previous + 1 := by
        unfold revision
        rw [hbefore] at hjustified
        generalize calls entry.writer = call at hjustified ⊢
        cases hjustified with
        | commit hload _ hrevision _ =>
          have hsame := (StudyBundle.importText_identity hfaithful hexport hload).2
          exact hrevision.trans (congrArg (· + 1) hsame)
      intro other hother
      rcases List.mem_cons.mp hother with rfl | hmem
      · omega
      · have := (List.pairwise_cons.mp hrest).1 other hmem
        omega

end Log

/-! ### Writers -/

/-- The writer has replaced the study file. -/
def Wrote (s : Store ι) (i : ι) : Prop := ∃ entry ∈ s.log, entry.writer = i

def Ended (path : StorePath) (s : Store ι) (i : ι) : Result Unit → Prop
  | .ok () => Wrote s i
  | .error failure => ¬ Wrote s i ∨ ∃ error, failure = .error (unconfirmed path error)

/-- From its lock to its release a writer holds the lock file. Once its checks
have passed, they speak of the file that is still there. -/
def WriterInv (engine : Engine F) (path : StorePath) (call : Call F) (s : Store ι) (i : ι) :
    Writer → Prop
  | .entered | .locking => ¬ Wrote s i
  | .signing | .opening | .reading => s.lock = some i ∧ ¬ Wrote s i
  | .writing => s.lock = some i ∧ ¬ Wrote s i ∧
      ∀ text, StudyBundle.exportText engine call.bundle = .ok text →
        Justified engine call s.target text
  | .staging text | .moving text =>
    s.lock = some i ∧ ¬ Wrote s i ∧ Justified engine call s.target text
  | .syncing => s.lock = some i ∧ Wrote s i
  | .releasing result => s.lock = some i ∧ Ended path s i result
  | .returned result => Ended path s i result

structure Inv (engine : Engine F) (path : StorePath) (calls : ι → Call F)
    (initial : Option String) (s : Store ι) : Prop where
  linked : Linked initial s.log s.target
  justified : ∀ entry ∈ s.log, Justified engine (calls entry.writer) entry.before entry.after
  writers : ∀ i, WriterInv engine path (calls i) s i (s.writer i)

section Writers

variable {engine : Engine F} {path : StorePath} {calls : ι → Call F} {initial : Option String}
  {s : Store ι}

/-- A step of another writer that leaves the study file alone, and the lock too
where it is held. -/
theorem WriterInv.frame {call : Call F} {i : ι} {writer : Writer} {next : Store ι}
    (h : WriterInv engine path call s i writer) (htarget : next.target = s.target)
    (hlog : next.log = s.log) (hlock : s.lock = some i → next.lock = some i) :
    WriterInv engine path call next i writer := by
  have hwrote : Wrote next i ↔ Wrote s i := by
    unfold Wrote
    rw [hlog]
  have hended (result : Result Unit) (hs : Ended path s i result) : Ended path next i result := by
    cases result with
    | ok => exact hwrote.mpr hs
    | error failure => exact hs.imp_left fun hnot hnext => hnot (hwrote.mp hnext)
  cases writer
  case entered => exact fun hnext => h (hwrote.mp hnext)
  case locking => exact fun hnext => h (hwrote.mp hnext)
  case signing => exact ⟨hlock h.1, fun hnext => h.2 (hwrote.mp hnext)⟩
  case opening => exact ⟨hlock h.1, fun hnext => h.2 (hwrote.mp hnext)⟩
  case reading => exact ⟨hlock h.1, fun hnext => h.2 (hwrote.mp hnext)⟩
  case writing => exact ⟨hlock h.1, fun hnext => h.2.1 (hwrote.mp hnext), htarget ▸ h.2.2⟩
  case staging => exact ⟨hlock h.1, fun hnext => h.2.1 (hwrote.mp hnext), htarget ▸ h.2.2⟩
  case moving => exact ⟨hlock h.1, fun hnext => h.2.1 (hwrote.mp hnext), htarget ▸ h.2.2⟩
  case syncing => exact ⟨hlock h.1, hwrote.mpr h.2⟩
  case releasing result => exact ⟨hlock h.1, hended result h.2⟩
  case returned result => exact hended result h

theorem WriterInv.replaced {call : Call F} {i : ι} {writer : Writer} {next : Store ι}
    {entry : Entry ι} (h : WriterInv engine path call s i writer) (hfree : s.lock ≠ some i)
    (hother : entry.writer ≠ i) (hlog : next.log = entry :: s.log) :
    WriterInv engine path call next i writer := by
  have hwrote : Wrote next i ↔ Wrote s i := by
    unfold Wrote
    rw [hlog]
    simp [hother]
  cases writer
  case entered => exact fun hnext => h (hwrote.mp hnext)
  case locking => exact fun hnext => h (hwrote.mp hnext)
  case returned result =>
    cases result with
    | ok => exact hwrote.mpr h
    | error failure => exact Or.imp_left (fun hnot hnext => hnot (hwrote.mp hnext)) h
  all_goals exact absurd h.1 hfree

theorem Inv.goto (h : Inv engine path calls initial s) {i : ι} {writer : Writer}
    {lock : Option ι} (hlock : ∀ j, j ≠ i → s.lock = some j → lock = some j)
    (hwriter : WriterInv engine path (calls i) { s with lock } i writer) :
    Inv engine path calls initial (FileStudyStore.goto { s with lock } i writer) where
  linked := h.linked
  justified := h.justified
  writers := by
    refine (Function.forall_update_iff s.writer fun j w =>
      WriterInv engine path (calls j) (FileStudyStore.goto { s with lock } i writer) j w).mpr ⟨?_, ?_⟩
    · exact hwriter.frame rfl rfl id
    · exact fun j hj => (h.writers j).frame rfl rfl (hlock j hj)

theorem Inv.stay (h : Inv engine path calls initial s) {i : ι} {writer : Writer}
    (hwriter : WriterInv engine path (calls i) s i writer) :
    Inv engine path calls initial (FileStudyStore.goto s i writer) :=
  have hlock : ∀ j, j ≠ i → s.lock = some j → s.lock = some j := fun _ _ hlock => hlock
  h.goto hlock hwriter

theorem Inv.fail (h : Inv engine path calls initial s) {i : ι} {message : String}
    (hlock : s.lock = some i) (hwrote : ¬ Wrote s i) :
    Inv engine path calls initial (FileStudyStore.fail s i message) :=
  h.stay ⟨hlock, .inl hwrote⟩

theorem Inv.attempt (h : Inv engine path calls initial s) {i : ι} {io : Option String}
    {next : Writer} {message : String → String} (hlock : s.lock = some i) (hwrote : ¬ Wrote s i)
    (hnext : WriterInv engine path (calls i) s i next) :
    Inv engine path calls initial (FileStudyStore.attempt s i io next message) := by
  cases io with
  | none => exact h.stay hnext
  | some error => exact h.fail hlock hwrote

theorem checkCommit_eq_ok {expectedRevision : ℕ} {bundle : StudyBundle F} {text : String}
    (h : checkCommit engine expectedRevision bundle text = .ok ()) :
    ∃ current, StudyBundle.importText engine text = .ok current ∧
      current.document.revision = expectedRevision ∧
      bundle.document.id = current.document.id ∧
      bundle.document.revision = expectedRevision + 1 := by
  simp only [checkCommit, bind_eq_ok, lift_eq_ok, refuse_eq_ok, not_not] at h
  obtain ⟨current, hload, _, hrevision, _, hid, _, -, hnext⟩ := h
  have hcurrent : current.document.revision = expectedRevision := by
    simpa [StudyBundle.checkRevision] using hrevision
  exact ⟨current, hload, hcurrent, hid.symm, hnext⟩

theorem step_inv (h : Inv engine path calls initial s) (label : ι × Option String) :
    Inv engine path calls initial (step engine path calls s label) := by
  obtain ⟨i, io⟩ := label
  have hwriter := h.writers i
  simp only [step]
  generalize s.writer i = writer at hwriter ⊢
  cases writer with
  | entered =>
    cases io with
    | none => exact h.stay hwriter
    | some error => exact h.stay (Or.inl hwriter)
  | locking =>
    simp only
    split
    next hfree =>
      have hsigning : WriterInv engine path (calls i) { s with lock := some i } i .signing :=
        ⟨rfl, hwriter⟩
      refine h.goto ?_ hsigning
      intro j _ hlock
      rw [hfree] at hlock
      cases hlock
    next => exact h.stay (Or.inl hwriter)
    next => exact h.stay (Or.inl hwriter)
  | signing => exact h.attempt hwriter.1 hwriter.2 hwriter
  | opening =>
    obtain ⟨hlock, hwrote⟩ := hwriter
    cases hcall : calls i with
    | create bundle =>
      simp only
      split
      next => exact h.fail hlock hwrote
      next hnone =>
        have htarget : s.target = none := by simpa using hnone
        refine h.stay ⟨hlock, hwrote, ?_⟩
        intro text hexport
        rw [htarget, hcall]
        rw [hcall] at hexport
        exact .create hexport
    | commit expectedRevision bundle =>
      simp only
      split
      next => exact h.fail hlock hwrote
      next =>
        split
        · exact h.fail hlock hwrote
        · exact h.attempt hlock hwrote ⟨hlock, hwrote⟩
  | reading =>
    obtain ⟨hlock, hwrote⟩ := hwriter
    simp only
    split
    next expectedRevision bundle text hcall htarget =>
      split
      next failure _ => exact h.stay ⟨hlock, .inl hwrote⟩
      next hcheck =>
        obtain ⟨current, hload, rfl, hid, hnext⟩ := checkCommit_eq_ok hcheck
        refine h.stay ⟨hlock, hwrote, ?_⟩
        intro text hexport
        rw [htarget, hcall]
        rw [hcall] at hexport
        exact .commit hload hid hnext hexport
    next => exact h.fail hlock hwrote
  | writing =>
    obtain ⟨hlock, hwrote, hchecked⟩ := hwriter
    simp only
    split
    next failure _ => exact h.stay ⟨hlock, .inl hwrote⟩
    next text hexport => exact h.stay ⟨hlock, hwrote, hchecked text hexport⟩
  | staging text => exact h.attempt hwriter.1 hwriter.2.1 hwriter
  | moving text =>
    obtain ⟨hlock, hwrote, hjustified⟩ := hwriter
    cases io with
    | some error => exact h.fail hlock hwrote
    | none =>
      constructor
      case linked => exact ⟨rfl, h.linked⟩
      case justified =>
        intro entry hentry
        rcases List.mem_cons.mp hentry with rfl | hold
        · exact hjustified
        · exact h.justified entry hold
      case writers =>
        refine (Function.forall_update_iff s.writer fun j w =>
          WriterInv engine path (calls j) _ j w).mpr ⟨?_, ?_⟩
        · exact ⟨hlock, _, List.mem_cons_self, rfl⟩
        · intro j hj
          refine (h.writers j).replaced ?_ hj.symm rfl
          rw [hlock]
          exact fun heq => hj (Option.some.inj heq).symm
  | syncing =>
    obtain ⟨hlock, hwrote⟩ := hwriter
    cases io with
    | none => exact h.stay ⟨hlock, hwrote⟩
    | some error => exact h.stay ⟨hlock, .inr ⟨error, rfl⟩⟩
  | releasing result =>
    obtain ⟨hlock, hended⟩ := hwriter
    refine h.goto ?_ hended
    intro j hj hother
    rw [hlock] at hother
    exact absurd (Option.some.inj hother).symm hj
  | returned result => exact h

/-! ### Runs -/

/-- What any interleaving leaves. The log accounts for every document stored;
each replacement is one its call allows; a call that succeeds made one; no
document takes another's identity; of the commits based on one revision at most
one succeeds; and a call that fails made no replacement, unless it says so. -/
structure NoLostUpdate (engine : Engine F) (path : StorePath) (calls : ι → Call F)
    (initial : Option String) (s : Store ι) : Prop where
  linked : Linked initial s.log s.target
  justified : ∀ entry ∈ s.log, Justified engine (calls entry.writer) entry.before entry.after
  succeeded : ∀ i, s.writer i = .returned (.ok ()) → Wrote s i
  identity : ∃ id, ∀ text ∈ stored initial s.log, ∀ document,
    StudyBundle.importText engine text = .ok document → document.document.id = id
  exclusive : ∀ i j expectedRevision b c, i ≠ j → calls i = .commit expectedRevision b →
    calls j = .commit expectedRevision c → s.writer i = .returned (.ok ()) →
      s.writer j ≠ .returned (.ok ())
  failed : ∀ i failure, s.writer i = .returned (.error failure) →
    ¬ Wrote s i ∨ ∃ error, failure = .error (unconfirmed path error)

theorem Inv.noLostUpdate (hfaithful : engine.Faithful) (h : Inv engine path calls initial s) :
    NoLostUpdate engine path calls initial s := by
  have hreturned (i : ι) (result : Result Unit) (hi : s.writer i = .returned result) :
      Ended path s i result := by
    have hwriter := h.writers i
    rw [hi] at hwriter
    exact hwriter
  have hrevision {i : ι} {expectedRevision : ℕ} {bundle : StudyBundle F}
      (hcall : calls i = .commit expectedRevision bundle) {entry : Entry ι} (hentry : entry ∈ s.log)
      (hi : entry.writer = i) : revision calls entry = expectedRevision + 1 := by
    have hjustified := h.justified entry hentry
    rw [hi, hcall] at hjustified
    rw [revision, hi, hcall]
    generalize entry.before = before at hjustified
    generalize entry.after = after at hjustified
    cases hjustified with
    | commit _ _ hnext _ => exact hnext
  constructor
  case linked => exact h.linked
  case justified => exact h.justified
  case succeeded => exact fun i hi => hreturned i _ hi
  case identity => exact h.linked.identity hfaithful _ _ h.justified
  case failed => exact fun i failure hi => hreturned i _ hi
  case exclusive =>
    intro i j expectedRevision b c hij hcall hother hi hj
    obtain ⟨first, hfirst, hwriter⟩ := hreturned i _ hi
    obtain ⟨second, hsecond, hrival⟩ := hreturned j _ hj
    have hne : first ≠ second := by
      rintro rfl
      exact hij (hwriter.symm.trans hrival)
    have hsame : revision calls first = revision calls second :=
      (hrevision hcall hfirst hwriter).trans (hrevision hother hsecond hrival).symm
    have hdistinct : s.log.Pairwise fun a b => revision calls a ≠ revision calls b :=
      (h.linked.increasing hfaithful _ _ h.justified).imp fun hlt => Nat.ne_of_gt hlt
    have hsymm : Std.Symm fun a b : Entry ι => revision calls a ≠ revision calls b :=
      ⟨fun _ _ hne => hne.symm⟩
    exact hdistinct.forall hfirst hsecond hne hsame

/-- No interleaving of creates and commits loses an update, wherever a step of one fails. A call that fails may
have replaced the file, but then its error says so. -/
theorem store_loses_no_update (hfaithful : engine.Faithful) (path : StorePath) (calls : ι → Call F)
    (initial : Option String) (schedule : List (ι × Option String)) :
    NoLostUpdate engine path calls initial
      (Machine.run (step engine path calls) (start initial) schedule) := by
  have hstart : Inv engine path calls initial (start initial) := by
    refine ⟨rfl, by simp [start], ?_⟩
    rintro i ⟨entry, hentry, -⟩
    cases hentry
  have hinv := Machine.run_invariant (I := Inv engine path calls initial)
    (fun _ label hs => step_inv hs label) hstart schedule
  exact hinv.noLostUpdate hfaithful

end Writers

/-! ### On the sample engine -/

namespace Sample

def blank (revision : ℕ) : StudyBundle ℚ :=
  { document :=
      { schema := "tellegen-study", version := studyVersion, id := "s", title := "", revision
        goals := ∅, states := ∅, experiments := ∅, experimentOrder := [], decisions := ∅
        activeGoal := none, inspectedState := none, recommendedState := none
        appliedState := none, baseInput := none, display := none, modelDetails := none }
    artifacts := ∅ }

def path : StorePath := { file := "s.json", parent := ".", lock := ".s.json.lock" }

/-- The first writer creates the study, the others commit its next revision. -/
def calls : ℕ → Call ℚ
  | 0 => .create (blank 0)
  | _ + 1 => .commit 0 (blank 1)

def undisturbed (writer steps : ℕ) : List (ℕ × Option String) :=
  List.replicate steps (writer, none)

def ran (schedule : List (ℕ × Option String)) : Store ℕ :=
  Machine.run (step Tellegen.Sample.engine path calls) (start none) schedule

theorem store_loses_no_update_blank :
    (ran (undisturbed 0 9 ++ undisturbed 1 10 ++ undisturbed 2 10)).writer 1 = .returned (.ok ()) ∧
      NoLostUpdate Tellegen.Sample.engine path calls none
        (ran (undisturbed 0 9 ++ undisturbed 1 10 ++ undisturbed 2 10)) :=
  ⟨by decide +kernel, store_loses_no_update Tellegen.Sample.faithful path calls none _⟩

/-- A commit whose directory cannot be synced returns an error after it has
replaced the study file. -/
theorem failed_commit_replaces_the_file :
    let s := ran (undisturbed 0 9 ++ undisturbed 1 8 ++ [(1, some "EIO"), (1, none)])
    s.writer 1 = .returned (.error (.error (unconfirmed path "EIO"))) ∧
      (ran (undisturbed 0 9)).target ≠ s.target := by
  decide +kernel

end Sample

end FileStudyStore

end Tellegen
