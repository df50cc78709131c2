import Tellegen.StudyApprovals

/-!
Controllers that share one store. A commit takes the revision in the store to
its successor, so a controller that another has overtaken never commits the
study again. Tokens never leave the controller that handed them out.
-/

namespace Tellegen

variable {F : Type} {ι : Type} [DecidableEq ι]

namespace StudyDocumentController

set_option linter.unusedSectionVars false

section System

variable {s : System F ι}

/-! ### Controllers that share a study -/

/-- Another controller has committed the study after an entry of this one. -/
def Overtaken (i : ι) (id : String) (log : List (ι × Entry F)) : Prop :=
  ∃ earlier entry later, log = earlier ++ (i, entry) :: later ∧
    ∃ j operation before after, j ≠ i ∧ (j, .stored operation before after) ∈ later ∧
      after.document.id = id

/-- A commit of a controller that no other has overtaken. -/
def Unrivalled (log : List (ι × Entry F)) : ι × Entry F → Prop
  | (i, .stored _ _ after) => ¬ Overtaken i after.document.id log
  | _ => True

/-- The backend returns the study it was given. -/
def KeepsIdentity (log : List (ι × Entry F)) : Prop :=
  ∀ i operation before after, (i, .stored operation before after) ∈ log →
    after.document.id = before.document.id

theorem overtaken_concat {i j : ι} {id : String} {log : List (ι × Entry F)} {entry : Entry F}
    (h : Overtaken i id (log ++ [(j, entry)])) : Overtaken i id log ∨
      j ≠ i ∧ ∃ operation before after, entry = .stored operation before after ∧
        after.document.id = id := by
  obtain ⟨earlier, mark, later, hsplit, k, operation, before, after, hk, hmem, hid⟩ := h
  rcases List.eq_nil_or_concat later with rfl | ⟨init, last, rfl⟩
  · simp at hmem
  · have hassoc : log ++ [(j, entry)] = (earlier ++ (i, mark) :: init) ++ [last] := by
      simpa using hsplit
    obtain ⟨hlog, hlast⟩ := List.append_inj' hassoc rfl
    rw [List.concat_eq_append] at hmem
    obtain rfl := List.singleton_inj.mp hlast
    rcases List.mem_append.mp hmem with hinit | hnew
    · exact .inl ⟨earlier, mark, init, hlog, k, operation, before, after, hk, hinit, hid⟩
    · obtain ⟨rfl, rfl⟩ := Prod.mk.inj (List.mem_singleton.mp hnew)
      exact .inr ⟨hk, operation, before, after, rfl, hid⟩

/-- The store is at or past what a controller has committed, and past it once the controller is
overtaken. -/
structure Behind (c : Controller F) (store : String → Option (StudyBundle F)) (i : ι)
    (log : List (ι × Entry F)) : Prop where
  stored : ∃ saved, store c.bundle.document.id = some saved ∧
    c.reached ≤ saved.document.revision ∧
    (Overtaken i c.bundle.document.id log → c.reached < saved.document.revision)
  same : ∀ completed, c.inFlight = some completed →
    completed.document.id = c.bundle.document.id

structure Shared (s : System F ι) : Prop where
  behind : ∀ i c, s.controllers i = some c → Behind c s.store i s.log
  unrivalled : Machine.Grounded Unrivalled s.log

def Entry.isStored : Entry F → Bool
  | .stored .. => true
  | _ => false

def Entry.grants : Entry F → Option ℕ
  | .approved token .. => some token
  | _ => none

/-- A step that commits nothing publishes at most the commit in flight. -/
def Publishes (c c' : Controller F) : Prop :=
  c'.bundle = c.bundle ∧ c'.inFlight = c.inFlight ∨
    c.inFlight = some c'.bundle ∧ c'.inFlight = none

/-- What a controller that has been opened can do to what it shares. -/
inductive Effect (s : System F ι) (i : ι) (c : Controller F) : System F ι → Prop where
  | signals (aborted : ℕ → Option String) : Effect s i c { s with aborted }
  | quiet (c' : Controller F) (entries : List (Entry F)) (tokens : ℕ)
      (hquiet : ∀ entry ∈ entries, entry.isStored = false) (hpublishes : Publishes c c')
      (hle : s.tokens ≤ tokens)
      (hfresh : ∀ entry ∈ entries, ∀ token, entry.grants = some token →
        token = s.tokens ∧ token < tokens) :
      Effect s i c (put { s with tokens } i c' entries)
  | stored (operation : Operation F) (completed : StudyBundle F)
      (store : String → Option (StudyBundle F))
      (hrunning : c.running = .committing operation completed)
      (hwrite : write s.store operation.request.expectedRevision completed = .ok store) :
      Effect s i c (put { s with store } i
        { c with running := .settled operation completed (.ok ()) }
        [.stored operation c.bundle completed])

theorem act_effect (s : System F ι) (i : ι) (c : Controller F) (event : Event F) :
    Effect s i c (act s i c event) := by
  have hquiet : ∀ {c' : Controller F} {entries : List (Entry F)},
      (∀ entry ∈ entries, entry.isStored = false ∧ entry.grants = none) → Publishes c c' →
      Effect s i c (put s i c' entries) := by
    intro c' entries hnone hpublishes
    refine .quiet c' entries s.tokens (fun entry hmem => (hnone entry hmem).1) hpublishes le_rfl ?_
    intro entry hmem token htoken
    simp [(hnone entry hmem).2] at htoken
  cases event with
  | opened bundle => exact .signals s.aborted
  | abort signal reason => exact .signals _
  | execute request signal =>
    simp only [act, execute]
    split
    · exact hquiet (by simp [Entry.isStored, Entry.grants]) (.inl ⟨rfl, rfl⟩)
    · exact hquiet (by simp) (.inl ⟨rfl, rfl⟩)
  | recordUserApproval proposal =>
    simp only [act, recordUserApproval]
    split
    · exact hquiet (by simp [Entry.isStored, Entry.grants]) (.inl ⟨rfl, rfl⟩)
    · refine .quiet _ _ (s.tokens + 1) (by simp [Entry.isStored]) (.inl ⟨rfl, rfl⟩) (Nat.le_succ _) ?_
      simp [Entry.grants]
  | applyApprovedProposal token signal =>
    simp only [act, applyApprovedProposal]
    split
    · exact hquiet (by simp [Entry.isStored, Entry.grants]) (.inl ⟨rfl, rfl⟩)
    · split
      · exact hquiet (by simp) (.inl ⟨rfl, rfl⟩)
      · exact hquiet (by simp [Entry.isStored, Entry.grants]) (.inl ⟨rfl, rfl⟩)
  | started =>
    simp only [act, startNext]
    split
    case h_1 operation rest hrunning hqueue =>
      have hidle : Publishes c { c with queue := rest, running := .idle } :=
        .inl ⟨rfl, by simp [Controller.inFlight, hrunning]⟩
      split
      · exact hquiet (by simp [Entry.isStored, Entry.grants]) hidle
      · split
        · exact hquiet (by simp [Entry.isStored, Entry.grants]) hidle
        · exact hquiet (by simp [Entry.isStored, Entry.grants])
            (.inl ⟨rfl, by simp [Controller.inFlight, hrunning]⟩)
    case h_2 => exact .signals s.aborted
  | executed answer =>
    simp only [act, backendAnswered]
    split
    case h_1 operation error hrunning =>
      exact hquiet (by simp [Entry.isStored, Entry.grants])
        (.inl ⟨rfl, by simp [Controller.inFlight, hrunning]⟩)
    case h_2 operation completed hrunning =>
      generalize (if operation.request.operation.isPropose then .ok ()
        else throwIfAborted s operation.signal : Except String Unit) = aborted
      split
      · exact hquiet (by simp [Entry.isStored, Entry.grants])
          (.inl ⟨rfl, by simp [Controller.inFlight, hrunning]⟩)
      · exact hquiet (by simp) (.inl ⟨rfl, by simp [Controller.inFlight, hrunning]⟩)
    case h_3 => exact .signals s.aborted
  | stored fault =>
    simp only [act, storeAnswered]
    split
    case h_1 operation completed fault hrunning =>
      exact hquiet (by simp) (.inl ⟨rfl, by simp [Controller.inFlight, hrunning]⟩)
    case h_2 operation completed hrunning =>
      split
      case h_1 =>
        exact hquiet (by simp) (.inl ⟨rfl, by simp [Controller.inFlight, hrunning]⟩)
      case h_2 store hwrite =>
        exact .stored operation completed store hrunning hwrite
    case h_3 => exact .signals s.aborted
  | returned =>
    simp only [act, commitReturned]
    split
    case h_1 hrunning =>
      exact hquiet (by simp [Entry.isStored, Entry.grants])
        (.inl ⟨rfl, by simp [Controller.inFlight, hrunning]⟩)
    case h_2 operation completed hrunning =>
      exact hquiet (by simp [Entry.isStored, Entry.grants])
        (.inr ⟨by simp [Controller.inFlight, hrunning], by simp [Controller.inFlight]⟩)
    case h_3 => exact .signals s.aborted

section Quiet

variable {i : ι} {entries : List (Entry F)}

theorem overtaken_quiet (hquiet : ∀ entry ∈ entries, entry.isStored = false) {j : ι} {id : String}
    {log : List (ι × Entry F)} (h : Overtaken j id (log ++ entries.map fun entry => (i, entry))) :
    Overtaken j id log := by
  induction entries using List.reverseRecOn with
  | nil => simpa using h
  | append_singleton init last ih =>
    rw [List.map_append, List.map_singleton, ← List.append_assoc] at h
    rcases overtaken_concat h with hold | ⟨-, operation, before, after, rfl, -⟩
    · exact ih (fun entry hmem => hquiet entry (List.mem_append_left _ hmem)) hold
    · have hlast := hquiet _ (List.mem_append_right init (List.mem_singleton_self _))
      simp [Entry.isStored] at hlast

theorem unrivalled_quiet (hquiet : ∀ entry ∈ entries, entry.isStored = false)
    {log : List (ι × Entry F)} (h : Machine.Grounded Unrivalled log) :
    Machine.Grounded Unrivalled (log ++ entries.map fun entry => (i, entry)) := by
  induction entries using List.reverseRecOn with
  | nil => simpa using h
  | append_singleton init last ih =>
    have hinit := ih fun entry hmem => hquiet entry (List.mem_append_left _ hmem)
    have hlast := hquiet last (List.mem_append_right init (List.mem_singleton_self _))
    rw [List.map_append, List.map_singleton, ← List.append_assoc]
    refine hinit.concat ?_
    cases last with
    | stored => simp [Entry.isStored] at hlast
    | _ => trivial

end Quiet

theorem Behind.frame {c : Controller F} {store store' : String → Option (StudyBundle F)} {i : ι}
    {log log' : List (ι × Entry F)} (h : Behind c store i log)
    (hstore : ∀ saved, store c.bundle.document.id = some saved → ∃ saved',
      store' c.bundle.document.id = some saved' ∧
      saved.document.revision ≤ saved'.document.revision ∧
      (Overtaken i c.bundle.document.id log' → Overtaken i c.bundle.document.id log ∨
        saved.document.revision < saved'.document.revision)) : Behind c store' i log' where
  stored := by
    obtain ⟨saved, hsaved, hreached, hovertaken⟩ := h.stored
    obtain ⟨saved', hsaved', hle, hnew⟩ := hstore saved hsaved
    refine ⟨saved', hsaved', hreached.trans hle, fun hrival => ?_⟩
    rcases hnew hrival with hold | hlt
    · exact (hovertaken hold).trans_le hle
    · exact hreached.trans_lt hlt
  same := h.same

theorem Behind.publish {c c' : Controller F} {store : String → Option (StudyBundle F)} {i : ι}
    {log : List (ι × Entry F)} (h : Behind c store i log) (hpublishes : Publishes c c')
    (hlanded : ∀ completed, c.inFlight = some completed →
      completed.document.revision = c.bundle.document.revision + 1) : Behind c' store i log := by
  have hid : c'.bundle.document.id = c.bundle.document.id := by
    rcases hpublishes with ⟨hbundle, -⟩ | ⟨hflight, -⟩
    · rw [hbundle]
    · exact h.same _ hflight
  have hreached : c'.reached = c.reached := by
    unfold Controller.reached
    rcases hpublishes with ⟨hbundle, hflight⟩ | ⟨hflight, hnone⟩
    · rw [hbundle, hflight]
    · rw [hflight, hnone, hlanded _ hflight]
      rfl
  constructor
  case stored =>
    rw [hid, hreached]
    exact h.stored
  case same =>
    intro completed hcompleted
    rcases hpublishes with ⟨hbundle, hflight⟩ | ⟨-, hnone⟩
    · rw [hbundle]
      exact h.same completed (hflight ▸ hcompleted)
    · simp [hnone] at hcompleted

theorem Shared.quiet (h : Shared s) {i : ι} {c' : Controller F} {entries : List (Entry F)}
    (hquiet : ∀ entry ∈ entries, entry.isStored = false) (hbehind : Behind c' s.store i s.log) :
    Shared (put s i c' entries) where
  behind j c hc := by
    have hframe : ∀ {c : Controller F} {j : ι}, Behind c s.store j s.log →
        Behind c s.store j (s.log ++ entries.map fun entry => (i, entry)) :=
      fun hold => hold.frame fun saved hsaved =>
        ⟨saved, hsaved, le_rfl, fun hrival => .inl (overtaken_quiet hquiet hrival)⟩
    by_cases hj : j = i
    · subst hj
      obtain rfl : c' = c := by simpa [StudyDocumentController.put] using hc
      exact hframe hbehind
    · exact hframe (h.behind j c (by simpa [StudyDocumentController.put, hj] using hc))
  unrivalled := unrivalled_quiet hquiet h.unrivalled

theorem Shared.store (h : Shared s) {i : ι} {c : Controller F} (hc : s.controllers i = some c)
    (hsound : Sound c (mine i s.log) s.tokens) {operation : Operation F}
    {completed : StudyBundle F} {store : String → Option (StudyBundle F)}
    (hrunning : c.running = .committing operation completed)
    (hwrite : write s.store operation.request.expectedRevision completed = .ok store)
    (hid : completed.document.id = c.bundle.document.id) :
    Shared (put { s with store } i { c with running := .settled operation completed (.ok ()) }
      [.stored operation c.bundle completed]) := by
  obtain ⟨⟨saved, hsaved, hexpected⟩, hrevision, rfl⟩ := write_eq_ok hwrite
  have hnamed : operation.request.expectedRevision = c.bundle.document.revision :=
    hsound.named operation (by simp [Running.operation, hrunning])
  have hbehind := h.behind i c hc
  have hfree : ¬ Overtaken i completed.document.id s.log := by
    intro hrival
    obtain ⟨other, hother, hreached, hovertaken⟩ := hbehind.stored
    rw [← hid, hsaved, Option.some.injEq] at hother
    subst hother
    have hlt := hovertaken (hid ▸ hrival)
    simp [Controller.reached, Controller.inFlight, hrunning] at hlt
    omega
  constructor
  case behind =>
    intro j other hother
    by_cases hj : j = i
    · subst hj
      obtain rfl : ({ c with running := .settled operation completed (.ok ()) } : Controller F) =
          other := by simpa [StudyDocumentController.put] using hother
      constructor
      case stored =>
        refine ⟨completed, by simp [StudyDocumentController.put, ← hid], ?_, fun hrival => ?_⟩
        · simp [Controller.reached, Controller.inFlight]
          omega
        · rcases overtaken_concat hrival with hold | ⟨hne, -⟩
          · exact absurd (hid ▸ hold) hfree
          · exact absurd rfl hne
      case same =>
        intro result hresult
        obtain rfl : completed = result := by simpa [Controller.inFlight] using hresult
        exact hid
    · refine (h.behind j other (by simpa [StudyDocumentController.put, hj] using hother)).frame ?_
      intro old hold
      by_cases hkey : other.bundle.document.id = completed.document.id
      · obtain rfl : saved = old := by simpa [hkey, hsaved] using hold
        refine ⟨completed, by simp [StudyDocumentController.put, hkey], by omega, fun _ => .inr ?_⟩
        omega
      · refine ⟨old, by simpa [StudyDocumentController.put, hkey] using hold, le_rfl, ?_⟩
        intro hrival
        rcases overtaken_concat hrival with hold | ⟨-, _, _, after, hentry, hafter⟩
        · exact .inl hold
        · cases hentry
          exact absurd hafter.symm hkey
  case unrivalled => exact h.unrivalled.concat hfree

theorem Shared.openStudy (h : Shared s) (hinv : Inv s) {i : ι} (hnone : s.controllers i = none)
    (bundle : StudyBundle F) : Shared (openStudy s i bundle) := by
  have hfirst : mine i s.log = [] := by
    have hi := hinv i
    rwa [hnone] at hi
  unfold StudyDocumentController.openStudy
  split
  case h_1 => exact h
  case h_2 saved hsaved =>
    split
    case isTrue hle =>
      refine h.quiet (by simp [Entry.isStored]) ⟨⟨saved, hsaved, ?_, fun hrival => ?_⟩, ?_⟩
      · simpa [Controller.reached, Controller.inFlight] using hle
      · obtain ⟨earlier, entry, later, hsplit, -⟩ := hrival
        rw [hsplit] at hfirst
        simp [mine] at hfirst
      · simp [Controller.inFlight]
    case isFalse => exact h

theorem Shared.step (h : Shared s) (hinv : Inv s) (label : ι × Event F)
    (hkeeps : KeepsIdentity (step s label).log) : Shared (step s label) := by
  rcases step_cases s label with ⟨aborted, hstep⟩ | ⟨bundle, hnone, hstep⟩ | ⟨c, event, hc, hstep⟩
  · rw [hstep]
    exact ⟨h.behind, h.unrivalled⟩
  · rw [hstep]
    exact h.openStudy hinv hnone bundle
  · rw [hstep] at hkeeps ⊢
    have hsound := hinv.sound hc
    generalize hact : act s label.1 c event = s' at hkeeps ⊢
    have heffect := act_effect s label.1 c event
    rw [hact] at heffect
    cases heffect with
    | signals aborted => exact ⟨h.behind, h.unrivalled⟩
    | quiet c' entries tokens hquiet hpublishes hle hfresh =>
      have htokens : Shared { s with tokens } := ⟨h.behind, h.unrivalled⟩
      exact htokens.quiet hquiet ((h.behind _ c hc).publish hpublishes hsound.landed)
    | stored operation completed store hrunning hwrite =>
      refine h.store hc hsound hrunning hwrite ?_
      exact hkeeps label.1 operation c.bundle completed (by simp [put])

/-! ### Tokens -/

/-- A token belongs to the controller that handed it out. -/
structure Owned (s : System F ι) : Prop where
  known : ∀ i entry token, (i, entry) ∈ s.log → entry.grants = some token → token < s.tokens
  unique : ∀ i j entry entry' token, (i, entry) ∈ s.log → (j, entry') ∈ s.log →
    entry.grants = some token → entry'.grants = some token → i = j

theorem Owned.put (h : Owned s) {i : ι} {c : Controller F} {entries : List (Entry F)}
    {tokens : ℕ} (hle : s.tokens ≤ tokens)
    (hfresh : ∀ entry ∈ entries, ∀ token, entry.grants = some token →
      token = s.tokens ∧ token < tokens) : Owned (put { s with tokens } i c entries) := by
  have hlog : ∀ j entry, (j, entry) ∈ (StudyDocumentController.put { s with tokens } i c entries).log →
      (j, entry) ∈ s.log ∨ j = i ∧ entry ∈ entries := by
    intro j entry hmem
    rcases List.mem_append.mp hmem with hold | hnew
    · exact .inl hold
    · obtain ⟨other, hother, hsame⟩ := List.mem_map.mp hnew
      obtain ⟨rfl, rfl⟩ := Prod.mk.inj hsame
      exact .inr ⟨rfl, hother⟩
  constructor
  case known =>
    intro j entry token hmem hgrants
    rcases hlog j entry hmem with hold | ⟨-, hnew⟩
    · exact (h.known j entry token hold hgrants).trans_le hle
    · exact (hfresh entry hnew token hgrants).2
  case unique =>
    intro j k entry entry' token hmem hmem' hgrants hgrants'
    rcases hlog j entry hmem with hold | ⟨rfl, hnew⟩ <;>
      rcases hlog k entry' hmem' with hold' | ⟨rfl, hnew'⟩
    · exact h.unique j k entry entry' token hold hold' hgrants hgrants'
    · have hknown := h.known j entry token hold hgrants
      have hsame := (hfresh entry' hnew' token hgrants').1
      omega
    · have hknown := h.known k entry' token hold' hgrants'
      have hsame := (hfresh entry hnew token hgrants).1
      omega
    · rfl

theorem Owned.step (h : Owned s) (label : ι × Event F) : Owned (step s label) := by
  rcases step_cases s label with ⟨aborted, hstep⟩ | ⟨bundle, -, hstep⟩ | ⟨c, event, -, hstep⟩
  · rw [hstep]
    exact ⟨h.known, h.unique⟩
  · rw [hstep]
    unfold openStudy
    split
    · exact h
    · split
      · exact h.put (c := _) le_rfl (by simp [Entry.grants])
      · exact h
  · rw [hstep]
    have heffect := act_effect s label.1 c event
    generalize act s label.1 c event = s' at heffect ⊢
    cases heffect with
    | signals aborted => exact ⟨h.known, h.unique⟩
    | quiet c' entries tokens hquiet hpublishes hle hfresh => exact h.put hle hfresh
    | stored operation completed store hrunning hwrite =>
      have hstore : Owned { s with store } := ⟨h.known, h.unique⟩
      exact hstore.put le_rfl (by simp [Entry.grants])

theorem log_grows (s : System F ι) (label : ι × Event F) : s.log <+: (step s label).log := by
  rcases step_cases s label with ⟨aborted, hstep⟩ | ⟨bundle, -, hstep⟩ | ⟨c, event, -, hstep⟩
  · rw [hstep]
  · rw [hstep]
    unfold openStudy
    split
    · exact List.prefix_refl _
    · split
      · exact List.prefix_append ..
      · exact List.prefix_refl _
  · rw [hstep]
    have heffect := act_effect s label.1 c event
    generalize act s label.1 c event = s' at heffect ⊢
    cases heffect with
    | signals aborted => exact List.prefix_refl _
    | quiet | stored => exact List.prefix_append ..

theorem mem_mine {i : ι} {entry : Entry F} {log : List (ι × Entry F)} :
    entry ∈ mine i log ↔ (i, entry) ∈ log := by
  simp only [mine, List.mem_filterMap, Option.ite_none_right_eq_some, Option.some.injEq,
    Prod.exists]
  constructor
  · rintro ⟨j, other, hmem, rfl, rfl⟩
    exact hmem
  · exact fun hmem => ⟨i, entry, hmem, rfl, rfl⟩

theorem Inv.spent_owned (h : Inv s) {i : ι} {entry : Entry F} {token : ℕ}
    (hmem : (i, entry) ∈ s.log) (hspends : entry.spends token = true) :
    ∃ grant : Entry F, (i, grant) ∈ s.log ∧ grant.grants = some token := by
  cases hc : s.controllers i with
  | none =>
    have hi := h i
    rw [hc] at hi
    have hmine := mem_mine.mpr hmem
    simp [hi] at hmine
  | some c =>
    have hsound := h.sound hc
    obtain ⟨before, after, hsplit⟩ := List.append_of_mem (mem_mine.mpr hmem)
    have hjustified := hsound.justified before entry after hsplit
    cases entry with
    | stored operation old new =>
      obtain ⟨earlier, later, approval, bundle, rfl, -⟩ :=
        hjustified.2.2.2 token (by simpa [Entry.spends] using hspends)
      refine ⟨.approved token approval bundle, mem_mine.mp ?_, rfl⟩
      rw [hsplit]
      simp
    | _ => simp [Entry.spends] at hspends

theorem Inv.single (h : Inv s) (howned : Owned s) (token : ℕ) :
    s.log.countP (fun entry => entry.2.spends token) ≤ 1 := by
  by_cases hspent : ∃ entry ∈ s.log, entry.2.spends token = true
  · obtain ⟨⟨i, entry⟩, hmem, hspends⟩ := hspent
    obtain ⟨grant, hgrant, htoken⟩ := h.spent_owned hmem hspends
    have hmine : ∀ other ∈ s.log, other.2.spends token = true ↔
        ((if other.1 = i then some other.2 else none).map (Entry.spends token)).getD false = true := by
      rintro ⟨j, other⟩ hother
      constructor
      · intro hother'
        obtain ⟨grant', hgrant', htoken'⟩ := h.spent_owned hother hother'
        simpa [howned.unique j i grant' grant token hgrant' hgrant htoken' htoken] using hother'
      · intro hother'
        by_cases hj : j = i
        · simpa [hj] using hother'
        · simp [hj] at hother'
    rw [List.countP_congr hmine, ← List.countP_filterMap]
    cases hc : s.controllers i with
    | none =>
      have hi := h i
      rw [hc] at hi
      have hnone := mem_mine.mpr hmem
      simp [hi] at hnone
    | some c => exact (h.sound hc).single token
  · refine le_of_eq_of_le (List.countP_eq_zero.mpr fun entry hmem hspends => ?_) (Nat.zero_le 1)
    exact hspent ⟨entry, hmem, hspends⟩

/-- In any run of any number of controllers on one store: what a controller holds is its last
commit that has returned, or what it was opened with; an operation runs on the revision it names;
an apply comes with a token of its controller, names what was recommended when the token was
handed out, and runs only if the study has not changed since; a token leads to one commit at
most. Where the backend returns the study it was given, a controller commits only as long as no
other controller has. -/
theorem mutations_are_durable_and_approved (store : String → Option (StudyBundle F))
    (schedule : List (ι × Event F)) :
    (∀ i c, (Machine.run step (start store) schedule).controllers i = some c →
      ∃ older, versions (mine i (Machine.run step (start store) schedule).log) =
        older ++ c.bundle :: c.inFlight.toList) ∧
    (∀ i, Machine.Grounded Justified (mine i (Machine.run step (start store) schedule).log)) ∧
    (∀ token, (Machine.run step (start store) schedule).log.countP
      (fun entry => entry.2.spends token) ≤ 1) ∧
    (KeepsIdentity (Machine.run step (start store) schedule).log →
      Machine.Grounded Unrivalled (Machine.run step (start store) schedule).log) := by
  have hinv := inv_run store schedule
  have howned : Owned (Machine.run step (start store) schedule) :=
    Machine.run_invariant (fun _ label h => h.step label)
      ⟨by simp [start], by simp [start]⟩ schedule
  have hshared : ∀ s : System F ι, (Inv s ∧ (KeepsIdentity s.log → Shared s)) → ∀ label,
      Inv (step s label) ∧ (KeepsIdentity (step s label).log → Shared (step s label)) := by
    refine fun s h label => ⟨h.1.step label, fun hkeeps => ?_⟩
    have hbefore : KeepsIdentity s.log := fun i operation before after hmem =>
      hkeeps i operation before after ((log_grows s label).subset hmem)
    exact (h.2 hbefore).step h.1 label hkeeps
  have hrun := Machine.run_invariant (fun s label h => hshared s h label)
    (⟨fun _ => rfl, fun _ => ⟨by simp [start], Machine.grounded_nil⟩⟩ :
      Inv (start store) ∧ (KeepsIdentity (start store : System F ι).log → Shared (start store)))
    schedule
  refine ⟨fun i c hc => (hinv.sound hc).versions, fun i => ?_, hinv.single howned,
    fun hkeeps => (hrun.2 hkeeps).unrivalled⟩
  cases hc : (Machine.run step (start store) schedule).controllers i with
  | none =>
    have hi := hinv i
    rw [hc] at hi
    rw [hi]
    exact Machine.grounded_nil
  | some c => exact (hinv.sound hc).justified

end System

end StudyDocumentController

end Tellegen
