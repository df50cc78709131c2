import Tellegen.OpfSession

/-!
What holds in every run of a session of optimal power flow, whatever the
compiler and the optimizer answer. The model is the one of the declared
problem, a change that fails is not seen, and the accepted result is current
exactly when nothing has been committed or attempted since.
-/

set_option linter.unusedSectionVars false

open Binary64 Outcome

namespace Tellegen.McOpf

variable {F T C O P Prep M Q : Type} [Binary64 F]

/-! ### Counters and checks -/

theorem increment_eq_ok {value next : ℕ} :
    increment value = .ok next ↔ value < counterMax ∧ next = value + 1 := by
  unfold increment
  split
  case isTrue h => simp [h, eq_comm]
  case isFalse h => simp [h]

theorem mapError_eq_ok {ε ε' α : Type} {f : ε → ε'} {x : Except ε α} {a : α} :
    x.mapError f = .ok a ↔ x = .ok a := by
  cases x with
  | error e => simp [Except.mapError]
  | ok b => simp [Except.mapError]

theorem validate_eq_ok {options : McOpfOptions F} :
    options.validate = .ok () ↔ options.invalidFields = [] := by
  unfold McOpfOptions.validate
  split
  case isTrue h => simp [h]
  case isFalse h => simp [h]

theorem bases_of_validate {options : McOpfOptions F} (h : options.validate = .ok ()) :
    (isFinite options.voltageBaseV = true ∧ le options.voltageBaseV 0 = false) ∧
      isFinite options.powerBaseVa = true ∧ le options.powerBaseVa 0 = false := by
  have hfields := (List.append_eq_nil_iff.mp (validate_eq_ok.mp h)).1
  rw [List.map_eq_nil_iff, List.filter_eq_nil_iff] at hfields
  have hvoltage := hfields ("voltage_base_v", options.voltageBaseV) (by simp)
  have hpower := hfields ("power_base_va", options.powerBaseVa) (by simp)
  simp only [Bool.or_eq_true, Bool.not_eq_true', not_or, Bool.not_eq_false,
    Bool.not_eq_true] at hvoltage hpower
  exact ⟨hvoltage, hpower⟩

/-- The comparison tells finite positive values apart. -/
class EqExact (F : Type) [Binary64 F] : Prop where
  eq_of_eq {a b : F} : isFinite a = true → le a 0 = false → eq a b = true → a = b

/-! ### Canonical points -/

/-- A built point assigns the values it was given to the identities of the network, and
nothing else. -/
structure PowerIo.BuildsPoints (lib : PowerIo F T C O P Prep) : Prop where
  values : ∀ {network families point}, lib.buildPoint network families = .ok point →
    ∀ q, lib.values point q = (families q).map fun v => (lib.identities network q).zip v
  noSwitches : ∀ {network families point}, lib.buildPoint network families = .ok point →
    lib.hasSwitchClosed point = false
  noSteps : ∀ {network families point}, lib.buildPoint network families = .ok point →
    lib.hasCapacitorSteps point = false

variable {lib : PowerIo F T C O P Prep}

theorem validateQuantity_eq_ok {point : P} {network : OpfNetwork F T} {q : Quantity} :
    validateQuantity lib point network q = .ok () ↔
      ∀ values, lib.values point q = some values →
        (∀ id, id ∈ lib.identities network q ↔ id ∈ values.map Prod.fst) ∧
          ∀ entry ∈ values, outside q entry.2 = false := by
  unfold validateQuantity
  cases lib.values point q with
  | none => simp
  | some values =>
    simp only [Option.some.injEq, forall_eq']
    split
    case isTrue h =>
      have hiff : ∀ id, id ∈ lib.identities network q ↔ id ∈ values.map Prod.fst :=
        fun id => ⟨h.1 id, h.2 id⟩
      split
      case h_1 hfind =>
        simp only [List.find?_eq_none, Bool.not_eq_true] at hfind
        simp only [true_iff]
        exact ⟨hiff, fun entry hentry => hfind entry hentry⟩
      case h_2 id v hfind =>
        have hmem := List.mem_of_find?_eq_some hfind
        have hout := List.find?_some hfind
        constructor
        · intro hok
          cases hok
        · rintro ⟨-, hinside⟩
          have := hinside _ hmem
          simp [this] at hout
    case isFalse h =>
      constructor
      · intro hok
        cases hok
      · rintro ⟨hiff, -⟩
        exact absurd ⟨fun id => (hiff id).mp, fun id => (hiff id).mpr⟩ h

theorem mem_quantities (q : Quantity) : q ∈ quantities := by
  cases q <;> decide

theorem validateIdentities_eq_ok {point : P} {network : OpfNetwork F T} :
    validateIdentities lib point network = .ok () ↔
      (∀ q, validateQuantity lib point network q = .ok ()) ∧
        lib.hasSwitchClosed point = false ∧ lib.hasCapacitorSteps point = false := by
  simp only [validateIdentities, bind_eq_ok, forM_eq_ok]
  constructor
  · rintro ⟨_, hall, h⟩
    refine ⟨fun q => hall q (mem_quantities q), ?_⟩
    cases hswitch : lib.hasSwitchClosed point <;> cases hsteps : lib.hasCapacitorSteps point <;>
      simp [hswitch, hsteps] at h ⊢
  · rintro ⟨hall, hswitch, hsteps⟩
    exact ⟨(), fun q _ => hall q, by simp [hswitch, hsteps]⟩

variable {compiler : Compiler F T C O P Prep M Q}

theorem orderedValues_mem {point : P} {network : OpfNetwork F T} {q : Quantity} {ordered : List F}
    (h : orderedValues lib point network q = .ok (some ordered)) :
    ordered.length = (lib.identities network q).length ∧
      ∃ values, lib.values point q = some values ∧ ∀ v ∈ ordered, ∃ id, (id, v) ∈ values := by
  unfold orderedValues at h
  cases hvalues : lib.values point q with
  | none => simp [hvalues] at h
  | some values =>
    simp only [hvalues, bind_eq_ok, Except.ok.injEq, Option.some.injEq] at h
    obtain ⟨found, hfound, rfl⟩ := h
    have hforall := forall₂_of_mapM_ok hfound
    refine ⟨hforall.length_eq.symm, values, rfl, ?_⟩
    intro v hv
    obtain ⟨id, -, hid⟩ := forall₂_right hforall hv
    cases hlookup : values.reverse.lookup id with
    | none => simp [hlookup] at hid
    | some w =>
      simp only [hlookup, Except.ok.injEq] at hid
      subst hid
      obtain ⟨before, after, heq, -⟩ := List.lookup_eq_some_iff.mp hlookup
      refine ⟨id, List.mem_reverse.mp ?_⟩
      rw [heq]
      exact List.mem_append_right _ List.mem_cons_self

theorem lookup_of_mapM {ε κ α : Type} [BEq κ] [LawfulBEq κ] {f : κ → Except ε α} {keys : List κ}
    {found : List (κ × α)}
    (h : keys.mapM (fun k => do let a ← f k; .ok (k, a)) = .ok found) {k : κ} (hk : k ∈ keys) :
    ∃ a, found.lookup k = some a ∧ f k = .ok a := by
  induction keys generalizing found with
  | nil => cases hk
  | cons key rest ih =>
    simp only [List.mapM_cons, bind_eq_ok, pure_eq_ok] at h
    obtain ⟨entry, ⟨a, ha, hentry⟩, entries, hentries, rfl⟩ := h
    obtain rfl := Except.ok.inj hentry
    by_cases hkey : k = key
    · subst hkey
      exact ⟨a, by rw [List.lookup_cons, beq_self_eq_true], ha⟩
    · have hrest : k ∈ rest := (List.mem_cons.mp hk).resolve_left hkey
      obtain ⟨b, hb, hfb⟩ := ih hentries hrest
      refine ⟨b, ?_, hfb⟩
      rw [List.lookup_cons, beq_eq_false_iff_ne.mpr hkey]
      exact hb

/-- The values of a canonical point are those of the point, in the order of the network. -/
theorem canonical_values (hbuilds : lib.BuildsPoints) {point canonical : P}
    {network : OpfNetwork F T} {families : List (Quantity × Option (List F))}
    (hfamilies : quantities.mapM (fun q => do
      let ordered ← orderedValues lib point network q
      .ok (q, ordered)) = .ok families)
    (hbuilt : lib.buildPoint network (fun q => (families.lookup q).getD none) = .ok canonical)
    {q : Quantity} {values : List (String × F)} (h : lib.values canonical q = some values) :
    values.map Prod.fst = lib.identities network q ∧
      ∃ original, lib.values point q = some original ∧
        ∀ entry ∈ values, ∃ id, (id, entry.2) ∈ original := by
  obtain ⟨ordered, hlookup, hordered⟩ := lookup_of_mapM hfamilies (mem_quantities q)
  rw [hbuilds.values hbuilt, hlookup] at h
  cases ordered with
  | none => cases h
  | some ordered =>
    simp only [Option.getD_some, Option.map_some, Option.some.injEq] at h
    obtain ⟨hlength, original, horiginal, hmem⟩ := orderedValues_mem hordered
    subst h
    refine ⟨List.map_fst_zip (by omega), original, horiginal, ?_⟩
    intro entry hentry
    exact hmem entry.2 (List.of_mem_zip hentry).2

theorem validate_canonical (hbuilds : lib.BuildsPoints) {point canonical : P}
    {network : OpfNetwork F T} {families : List (Quantity × Option (List F))}
    (hvalid : validateIdentities lib point network = .ok ())
    (hfamilies : quantities.mapM (fun q => do
      let ordered ← orderedValues lib point network q
      .ok (q, ordered)) = .ok families)
    (hbuilt : lib.buildPoint network (fun q => (families.lookup q).getD none) = .ok canonical) :
    validateIdentities lib canonical network = .ok () := by
  rw [validateIdentities_eq_ok] at hvalid ⊢
  refine ⟨?_, hbuilds.noSwitches hbuilt, hbuilds.noSteps hbuilt⟩
  intro q
  rw [validateQuantity_eq_ok]
  intro values hvalues
  obtain ⟨hids, original, horiginal, hmem⟩ := canonical_values hbuilds hfamilies hbuilt hvalues
  refine ⟨fun id => by rw [hids], ?_⟩
  intro entry hentry
  obtain ⟨id, hid⟩ := hmem entry hentry
  have hinside := (validateQuantity_eq_ok.mp (hvalid.1 q) original horiginal).2 (id, entry.2) hid
  exact hinside

/-- What is compiled does not depend on the order in which the initial point is stored. -/
theorem compile_canonical (hbuilds : lib.BuildsPoints) {inst canonical : McAcOpfInstance F T C O P}
    {options : McOpfOptions F} {compiled : Model F M × String}
    (hcompile : compile lib compiler inst options = .ok compiled)
    (h : canonicalInstance lib inst = .ok canonical) :
    compile lib compiler canonical options = .ok compiled := by
  unfold canonicalInstance at h
  cases hpoint : inst.initialPoint with
  | none =>
    simp only [hpoint] at h
    obtain rfl := Except.ok.inj h
    exact hcompile
  | some point =>
    simp only [hpoint, bind_eq_ok, fromPowerIo, mapError_eq_ok, Except.ok.injEq] at h
    obtain ⟨families, hfamilies, built, hbuilt, rfl⟩ := h
    simp only [compile, bind_eq_ok] at hcompile ⊢
    obtain ⟨prep, hprep, hrest⟩ := hcompile
    refine ⟨prep, ?_, hrest⟩
    simp only [prepare, hpoint, bind_eq_ok] at hprep ⊢
    obtain ⟨_, hvalid, hprep⟩ := hprep
    exact ⟨(), validate_canonical hbuilds hvalid hfamilies hbuilt, hprep⟩

/-! ### Calls -/

namespace McOpfSession

variable (lib compiler) in
inductive Call (F T C O P M Q : Type) where
  | applyEdits (edits : List (McOpfEdit F C))
  | setOptions (options : McOpfOptions F)
  | solve (start : McOpfStart) (cancel : Cancel) (optimize : Optimizer F T C O P M Q)

inductive Reply (F Q : Type) where
  | revision (outcome : Except McOpfError ℕ)
  | result (outcome : Except McOpfError (McOpfSessionResult F Q))

variable (lib compiler) in
def step (session : McOpfSession F T C O P M Q) :
    Call F T C O P M Q → McOpfSession F T C O P M Q × Reply F Q
  | .applyEdits edits =>
    let (next, outcome) := session.applyEdits lib compiler edits
    (next, .revision outcome)
  | .setOptions options =>
    let (next, outcome) := session.setOptions lib compiler options
    (next, .revision outcome)
  | .solve start cancel optimize =>
    let (next, outcome) := session.solveCancellable compiler start cancel optimize
    (next, .result outcome)

/-- A change that is asked for: some edit, or other options. -/
def changes (session : McOpfSession F T C O P M Q) : Call F T C O P M Q → Bool
  | .applyEdits edits => !edits.isEmpty
  | .setOptions options => !options.equal session.options
  | .solve .. => false

structure History (F Q : Type) where
  /-- The number of committed changes. -/
  commits : ℕ
  /-- Whether the latest attempt has succeeded and nothing has been committed since. -/
  fresh : Bool
  /-- The result of the last attempt that has succeeded. -/
  last : Option (McOpfSessionResult F Q)

/-- A call without an error that asks for a change commits it. A solve is an attempt as long as
there is a number for it. -/
def History.next (history : History F Q) (session : McOpfSession F T C O P M Q)
    (call : Call F T C O P M Q) : Reply F Q → History F Q
  | .revision (.ok _) =>
    if session.changes call then
      { history with commits := history.commits + 1, fresh := false }
    else history
  | .revision (.error _) => history
  | .result (.ok result) => { history with fresh := true, last := some result }
  | .result (.error _) =>
    if session.attempts < counterMax then { history with fresh := false } else history

variable (lib compiler) in
/-- The sessions that calls lead to, with what has happened on the way. -/
inductive Reaches (first : McOpfSession F T C O P M Q) :
    McOpfSession F T C O P M Q → History F Q → Prop where
  | start : Reaches first first ⟨0, false, none⟩
  | call {session history} (call : Call F T C O P M Q) : Reaches first session history →
      Reaches first (session.step lib compiler call).1
        (history.next session call (session.step lib compiler call).2)

/-! ### What a call can do -/

variable {session next : McOpfSession F T C O P M Q}

/-- A committed change: another revision and whatever belongs to it, with the model of the
declared problem. Attempts and accepted results stay as they are. -/
structure Commits (lib : PowerIo F T C O P Prep) (compiler : Compiler F T C O P Prep M Q)
    (session next : McOpfSession F T C O P M Q) : Prop where
  valid : next.options.validate = .ok ()
  compiled : compile lib compiler next.inst next.options = .ok (next.model, next.fingerprint)
  revision : next.revision = session.revision + 1
  attempts : next.attempts = session.attempts
  accepted : next.accepted = session.accepted

/-- The model and the fingerprint are those of the declared problem, with valid options. -/
structure Compiled (lib : PowerIo F T C O P Prep) (compiler : Compiler F T C O P Prep M Q)
    (session : McOpfSession F T C O P M Q) : Prop where
  valid : session.options.validate = .ok ()
  compiled : compile lib compiler session.inst session.options =
    .ok (session.model, session.fingerprint)

theorem editedSession_commits (h : Compiled lib compiler session) {edits : List (McOpfEdit F C)}
    (hok : editedSession lib compiler session edits = .ok next) :
    Commits lib compiler session next := by
  simp only [editedSession, bind_eq_ok, Except.ok.injEq] at hok
  obtain ⟨_, -, candidate, -, ⟨model, fingerprint⟩, hcompile, revision, hrevision, _, -, rfl⟩ := hok
  exact ⟨h.valid, hcompile, (increment_eq_ok.mp hrevision).2, rfl, rfl⟩

theorem compile_sameBases [EqExact F] {inst : McAcOpfInstance F T C O P}
    {options other : McOpfOptions F} (hvalid : options.validate = .ok ())
    (h : options.sameBases other = true) :
    compile lib compiler inst options = compile lib compiler inst other := by
  obtain ⟨⟨hvoltage, hvoltage0⟩, hpower, hpower0⟩ := bases_of_validate hvalid
  obtain ⟨heqVoltage, heqPower⟩ := Bool.and_eq_true_iff.mp h
  rw [compile, compile, EqExact.eq_of_eq hvoltage hvoltage0 heqVoltage,
    EqExact.eq_of_eq hpower hpower0 heqPower]

theorem changedSession_commits [EqExact F] (h : Compiled lib compiler session)
    {options : McOpfOptions F} (hok : changedSession lib compiler session options = .ok next) :
    (options.equal session.options = true ∧ next = session) ∨
      (options.equal session.options = false ∧ Commits lib compiler session next) := by
  simp only [changedSession, bind_eq_ok] at hok
  obtain ⟨_, hvalid, hok⟩ := hok
  split at hok
  case isTrue hequal => exact Or.inl ⟨hequal, (Except.ok.inj hok).symm⟩
  case isFalse hdiffer =>
    refine Or.inr ⟨Bool.not_eq_true _ ▸ hdiffer, ?_⟩
    rw [bind_eq_ok] at hok
    obtain ⟨revision, hrevision, hok⟩ := hok
    have hnext := (increment_eq_ok.mp hrevision).2
    split at hok
    case isTrue hbases =>
      obtain rfl := Except.ok.inj hok
      exact ⟨hvalid, (compile_sameBases hvalid hbases).trans h.compiled, hnext, rfl, rfl⟩
    case isFalse =>
      simp only [bind_eq_ok, Except.ok.injEq] at hok
      obtain ⟨⟨model, fingerprint⟩, hcompile, _, -, rfl⟩ := hok
      exact ⟨hvalid, hcompile, hnext, rfl, rfl⟩

theorem solved_eq_ok {start : McOpfStart} {cancel : Cancel} {optimize : Optimizer F T C O P M Q}
    {result : McOpfSessionResult F Q}
    (h : solved compiler session start cancel optimize = .ok (next, result)) :
    ∃ primal unique, next = { session with
        primal, primalNamesUnique := unique, accepted := some result } ∧
      result.revision = session.revision ∧ result.attempt = session.attempts := by
  simp only [solved, bind_eq_ok, Except.ok.injEq, Prod.mk.injEq] at h
  obtain ⟨_, -, ⟨model, used, diagnostics⟩, -, ⟨found, x⟩, -, _, -, rfl, rfl⟩ := h
  exact ⟨_, _, rfl, rfl, rfl⟩

/-! ### Runs -/

/-- The accepted result is the one of the current revision and the latest attempt. -/
def IsCurrent (session : McOpfSession F T C O P M Q) : Prop :=
  ∃ r, session.accepted = some r ∧ r.revision = session.revision ∧ r.attempt = session.attempts

theorem currentResult_isSome : session.currentResult.isSome = true ↔ session.IsCurrent := by
  unfold currentResult IsCurrent
  cases session.accepted with
  | none => simp
  | some r => simp [Option.filter]

/-- What every call preserves. -/
structure Tracks (lib : PowerIo F T C O P Prep) (compiler : Compiler F T C O P Prep M Q)
    (session : McOpfSession F T C O P M Q) (history : History F Q) : Prop where
  compiled : Compiled lib compiler session
  revision : session.revision = history.commits
  accepted : session.accepted = history.last
  bounded : ∀ r, session.accepted = some r →
    r.revision ≤ session.revision ∧ r.attempt ≤ session.attempts
  current : session.IsCurrent ↔ history.fresh = true

theorem Tracks.commit {history : History F Q} (h : Tracks lib compiler session history)
    (hcommits : Commits lib compiler session next) :
    Tracks lib compiler next
      { history with commits := history.commits + 1, fresh := false } := by
  constructor
  case compiled => exact ⟨hcommits.valid, hcommits.compiled⟩
  case revision => rw [hcommits.revision, h.revision]
  case accepted => rw [hcommits.accepted, h.accepted]
  case bounded =>
    intro r hr
    rw [hcommits.accepted] at hr
    obtain ⟨hrevision, hattempt⟩ := h.bounded r hr
    rw [hcommits.revision, hcommits.attempts]
    exact ⟨by omega, hattempt⟩
  case current =>
    constructor
    · rintro ⟨r, hr, hrevision, -⟩
      rw [hcommits.accepted] at hr
      have hbound := (h.bounded r hr).1
      have hnext := hcommits.revision
      omega
    · intro hfalse
      cases hfalse

theorem Tracks.attempt {history : History F Q} (h : Tracks lib compiler session history) :
    Tracks lib compiler { session with attempts := session.attempts + 1 }
      { history with fresh := false } := by
  refine ⟨⟨h.compiled.valid, h.compiled.compiled⟩, h.revision, h.accepted, ?_, ?_⟩
  · intro r hr
    obtain ⟨hrevision, hattempt⟩ := h.bounded r hr
    exact ⟨hrevision, Nat.le_succ_of_le hattempt⟩
  · constructor
    · rintro ⟨r, hr, -, hattempt⟩
      have hbound := (h.bounded r hr).2
      change r.attempt = session.attempts + 1 at hattempt
      omega
    · intro hfalse
      cases hfalse

theorem Tracks.accept {history : History F Q} (h : Tracks lib compiler session history)
    {primal : List (String × F)} {unique : Bool} {result : McOpfSessionResult F Q}
    (hrevision : result.revision = session.revision) (hattempt : result.attempt = session.attempts) :
    Tracks lib compiler
      { session with primal, primalNamesUnique := unique, accepted := some result }
      { history with fresh := true, last := some result } := by
  refine ⟨⟨h.compiled.valid, h.compiled.compiled⟩, h.revision, rfl, ?_, ?_⟩
  · intro r hr
    obtain rfl := Option.some.inj hr
    exact ⟨hrevision.le, hattempt.le⟩
  · exact ⟨fun _ => rfl, fun _ => ⟨result, rfl, hrevision, hattempt⟩⟩

variable (compiler) in
theorem solveCancellable_cases (session : McOpfSession F T C O P M Q) (start : McOpfStart)
    (cancel : Cancel) (optimize : Optimizer F T C O P M Q) :
    (¬ session.attempts < counterMax ∧
      ∃ error, session.solveCancellable compiler start cancel optimize = (session, .error error)) ∨
    (session.attempts < counterMax ∧
      ((∃ error, session.solveCancellable compiler start cancel optimize =
          ({ session with attempts := session.attempts + 1 }, .error error)) ∨
        ∃ next result, session.solveCancellable compiler start cancel optimize =
            (next, .ok result) ∧
          solved compiler { session with attempts := session.attempts + 1 } start cancel
            optimize = .ok (next, result))) := by
  unfold solveCancellable
  cases hattempts : increment session.attempts with
  | error error =>
    left
    have hmax : ¬ session.attempts < counterMax := by
      intro hlt
      rw [increment, if_pos hlt] at hattempts
      cases hattempts
    exact ⟨hmax, error, rfl⟩
  | ok attempts =>
    obtain ⟨hlt, rfl⟩ := increment_eq_ok.mp hattempts
    refine Or.inr ⟨hlt, ?_⟩
    dsimp only
    cases hsolved : solved compiler { session with attempts := session.attempts + 1 } start cancel
        optimize with
    | error error => exact Or.inl ⟨error, rfl⟩
    | ok solved => exact Or.inr ⟨solved.1, solved.2, rfl, rfl⟩

theorem tracks_step [EqExact F] {history : History F Q} (h : Tracks lib compiler session history)
    (call : Call F T C O P M Q) :
    Tracks lib compiler (session.step lib compiler call).1
      (history.next session call (session.step lib compiler call).2) := by
  cases call with
  | applyEdits edits =>
    by_cases hempty : edits = []
    · subst hempty
      exact h
    · have hchanges : session.changes (Call.applyEdits edits : Call F T C O P M Q) = true := by
        cases edits with
        | nil => exact absurd rfl hempty
        | cons => rfl
      cases hedited : editedSession lib compiler session edits with
      | error error =>
        simp only [step, applyEdits, hempty, if_false, McOpfSession.commit, hedited, History.next]
        exact h
      | ok next =>
        simp only [step, applyEdits, hempty, if_false, McOpfSession.commit, hedited, History.next,
          hchanges, if_true]
        exact h.commit (editedSession_commits h.compiled hedited)
  | setOptions options =>
    have hchanges : session.changes (Call.setOptions options : Call F T C O P M Q) =
      !options.equal session.options := rfl
    cases hchanged : changedSession lib compiler session options with
    | error error =>
      simp only [step, setOptions, McOpfSession.commit, hchanged, History.next]
      exact h
    | ok next =>
      simp only [step, setOptions, McOpfSession.commit, hchanged, History.next, hchanges]
      rcases changedSession_commits h.compiled hchanged with ⟨hequal, rfl⟩ | ⟨hdiffer, hcommits⟩
      · simp only [hequal, Bool.not_true, Bool.false_eq_true, if_false]
        exact h
      · simp only [hdiffer, Bool.not_false, if_true]
        exact h.commit hcommits
  | solve start cancel optimize =>
    unfold step
    rcases solveCancellable_cases compiler session start cancel optimize with
      ⟨hmax, error, hrefused⟩ | ⟨hlt, ⟨error, hfailed⟩ | ⟨next, result, hdone, hsolved⟩⟩
    · simp only [hrefused, History.next, hmax, if_false]
      exact h
    · simp only [hfailed, History.next, hlt, if_true]
      exact h.attempt
    · simp only [hdone, History.next]
      obtain ⟨primal, unique, rfl, hrevision, hattempt⟩ := solved_eq_ok hsolved
      exact h.attempt.accept hrevision hattempt

theorem tracks_new (hbuilds : lib.BuildsPoints) {inst : McAcOpfInstance F T C O P}
    {options : McOpfOptions F} {first : McOpfSession F T C O P M Q}
    (hnew : McOpfSession.new lib compiler inst options = .ok first) :
    Tracks lib compiler first ⟨0, false, none⟩ := by
  simp only [McOpfSession.new, bind_eq_ok, Except.ok.injEq] at hnew
  obtain ⟨_, hvalid, ⟨model, fingerprint⟩, hcompile, canonical, hcanonical, rfl⟩ := hnew
  refine ⟨⟨hvalid, compile_canonical hbuilds hcompile hcanonical⟩, rfl, rfl, by simp, ?_⟩
  constructor
  · rintro ⟨r, hr, -⟩
    cases hr
  · intro hfalse
    cases hfalse

theorem reaches_tracks [EqExact F] {first : McOpfSession F T C O P M Q}
    (hfirst : Tracks lib compiler first ⟨0, false, none⟩) {history : History F Q}
    (h : Reaches lib compiler first session history) : Tracks lib compiler session history := by
  induction h with
  | start => exact hfirst
  | call call _ ih => exact tracks_step ih call

structure Consistent (lib : PowerIo F T C O P Prep) (compiler : Compiler F T C O P Prep M Q)
    (session : McOpfSession F T C O P M Q) (history : History F Q) : Prop where
  compiled : compile lib compiler session.inst session.options =
    .ok (session.model, session.fingerprint)
  revision : session.revision = history.commits
  accepted : session.accepted = history.last
  current : session.currentResult.isSome = history.fresh
  /-- A batch of edits that fails changes nothing. -/
  edits : ∀ edits error, (session.applyEdits lib compiler edits).2 = .error error →
    (session.applyEdits lib compiler edits).1 = session
  options : ∀ options error, (session.setOptions lib compiler options).2 = .error error →
    (session.setOptions lib compiler options).1 = session
  /-- An attempt that fails changes its number only. -/
  solve : ∀ start cancel optimize error,
    (session.solveCancellable compiler start cancel optimize).2 = .error error →
      ∃ attempts, (session.solveCancellable compiler start cancel optimize).1 =
        { session with attempts }

theorem commit_error {changed : Except McOpfError (McOpfSession F T C O P M Q)}
    {error : McOpfError} (h : (session.commit changed).2 = .error error) :
    (session.commit changed).1 = session := by
  cases changed with
  | error _ => rfl
  | ok next => cases h

/-- Whatever the compiler and the optimizer answer, every call keeps the session consistent. A batch of edits or
options that fails changes nothing, and a failed attempt to solve changes its number only. -/
theorem session_consistent [EqExact F] (hbuilds : lib.BuildsPoints)
    {inst : McAcOpfInstance F T C O P} {options : McOpfOptions F}
    {first : McOpfSession F T C O P M Q}
    (hnew : McOpfSession.new lib compiler inst options = .ok first) {history : History F Q}
    (hreach : Reaches lib compiler first session history) :
    Consistent lib compiler session history := by
  have htracks := reaches_tracks (tracks_new hbuilds hnew) hreach
  constructor
  case compiled => exact htracks.compiled.compiled
  case revision => exact htracks.revision
  case accepted => exact htracks.accepted
  case current =>
    rw [Bool.eq_iff_iff, currentResult_isSome]
    exact htracks.current
  case edits =>
    intro edits error herror
    unfold applyEdits at herror ⊢
    split at herror
    case isTrue => cases herror
    case isFalse hedits =>
      rw [if_neg hedits]
      exact commit_error herror
  case options =>
    intro options error herror
    exact commit_error herror
  case solve =>
    intro start cancel optimize error herror
    rcases solveCancellable_cases compiler session start cancel optimize with
      ⟨-, _, hrefused⟩ | ⟨-, ⟨_, hfailed⟩ | ⟨next, result, hdone, -⟩⟩
    · rw [hrefused]
      exact ⟨session.attempts, rfl⟩
    · rw [hfailed]
      exact ⟨_, rfl⟩
    · rw [hdone] at herror
      cases herror

end McOpfSession

/-! ### A session that runs out of numbers -/

section Exhausted

@[reducible] def rationals : Binary64 ℚ := Binary64.exact fun _ => ""

attribute [local instance] rationals

/-- Points that hold what they were built of, on networks without identities. -/
def plainLib : PowerIo ℚ Unit Unit Unit (Quantity → Option (List (String × ℚ))) Unit where
  identities _ _ := []
  quantityName _ := ""
  values point := point
  hasSwitchClosed _ := false
  hasCapacitorSteps _ := false
  buildPoint _ families := .ok fun q => (families q).map fun v => [].zip v
  fromNetwork network := .ok ⟨network, (), (), none⟩
  withNetwork inst network := .ok { inst with network }
  buildPreparation _ _ := .ok ()

def plainCompiler :
    Compiler ℚ Unit Unit Unit (Quantity → Option (List (String × ℚ))) Unit Unit Unit where
  fingerprint _ := .ok ""
  compileWithParameters _ network := .ok ⟨[], network.loads.flatMap OpfLoad.pNom, ()⟩
  apply model _ := .ok (model, [])
  refresh _ x := .ok x
  voltageTapPoint inst _ _ := .ok inst

def plainInstance : McAcOpfInstance ℚ Unit Unit Unit (Quantity → Option (List (String × ℚ))) :=
  ⟨⟨[], [], [⟨"load", [1], [0]⟩], [], [], [], [], ()⟩, (), (), none⟩

def plainOptions : McOpfOptions ℚ := ⟨1, 1, 1, 1, 1, false, false⟩

theorem plainLib_buildsPoints : plainLib.BuildsPoints := by
  constructor
  case values =>
    intro network families point hbuilt q
    obtain rfl := Except.ok.inj hbuilt
    rfl
  case noSwitches => exact fun _ => rfl
  case noSteps => exact fun _ => rfl

theorem rationals_eqExact : EqExact ℚ := ⟨fun _ _ h => of_decide_eq_true h⟩

def plainSession :
    McOpfSession ℚ Unit Unit Unit (Quantity → Option (List (String × ℚ))) Unit Unit :=
  ⟨plainInstance, plainOptions, ⟨[], [1], ()⟩, "", 0, 0, 1, none, [], true⟩

theorem new_plain :
    McOpfSession.new plainLib plainCompiler plainInstance plainOptions = .ok plainSession := by
  have hvalid : plainOptions.validate = .ok () := validate_eq_ok.mpr (by decide)
  rw [McOpfSession.new, hvalid]
  rfl

def plainOptimize : Optimizer ℚ Unit Unit Unit (Quantity → Option (List (String × ℚ))) Unit Unit :=
  fun _ options _ => .ok (⟨options, ()⟩, [])

open McOpfSession in
/-- A solve, an edit, a batch that names an unknown load, a solve that is cancelled, another voltage
base and a solve from the last accepted result. -/
theorem session_consistent_plain :
    McOpfSession.new plainLib plainCompiler plainInstance plainOptions = .ok plainSession ∧
      ∃ session history, Reaches plainLib plainCompiler plainSession session history ∧
        Consistent plainLib plainCompiler session history ∧ session.model.x0 = [2] ∧
        session.revision = 2 ∧ session.attempts = 3 ∧ session.currentResult.isSome = true := by
  have := rationals_eqExact
  have hedited := ((@Reaches.start _ _ _ _ _ _ _ _ _ plainLib plainCompiler plainSession).call
    (.solve .declared ⟨false, false⟩ plainOptimize)).call (.applyEdits [.loadPower "load" [2] [0]])
  have hrefused := (hedited.call (.applyEdits [.loadPower "load" [3] [0],
    .loadPower "pump" [1] [0]])).call (.solve .declared ⟨false, true⟩ plainOptimize)
  have hreach := (hrefused.call (.setOptions { plainOptions with voltageBaseV := 2 })).call
    (.solve .lastAccepted ⟨false, false⟩ plainOptimize)
  refine ⟨new_plain, _, _, hreach, session_consistent plainLib_buildsPoints new_plain hreach, ?_⟩
  decide +kernel

namespace McOpfSession

theorem solve_plain
    (session : McOpfSession ℚ Unit Unit Unit (Quantity → Option (List (String × ℚ))) Unit Unit)
    (h : session.attempts < counterMax) :
    ((session.step plainLib plainCompiler
      (.solve .declared ⟨false, false⟩ plainOptimize)).1).attempts = session.attempts + 1 ∧
    ((session.step plainLib plainCompiler
      (.solve .declared ⟨false, false⟩ plainOptimize)).1).IsCurrent := by
  have hinitialized : initialized plainCompiler
      { session with attempts := session.attempts + 1 } .declared =
        .ok (session.model, .declared, []) := by
    unfold initialized
    have hnone : (session.accepted.filter fun _ => McOpfStart.declared == .lastAccepted) = none := by
      cases session.accepted <;> rfl
    simp only [hnone]
    rfl
  simp only [step, solveCancellable, increment, if_pos h, solved, hinitialized, plainOptimize,
    cancelled, Bool.false_eq_true, if_false, bind, Except.bind]
  exact ⟨trivial, _, rfl, rfl, rfl⟩

/-- Any number of attempts that fits the counter is reached, and the last of them is current. -/
theorem reaches_attempts (count : ℕ) (h : count < counterMax) :
    ∃ session history, Reaches plainLib plainCompiler plainSession session history ∧
      session.attempts = count + 1 ∧ session.IsCurrent := by
  induction count with
  | zero =>
    obtain ⟨hattempts, hcurrent⟩ := solve_plain plainSession h
    exact ⟨_, _, .call _ .start, hattempts, hcurrent⟩
  | succ count ih =>
    obtain ⟨session, history, hreach, hattempts, -⟩ := ih (by omega)
    obtain ⟨hnext, hcurrent⟩ := solve_plain session (by omega)
    exact ⟨_, _, .call _ hreach, by omega, hcurrent⟩

/-- After `2 ^ 64 - 1` attempts a solve fails and the result of the last of them stays current. -/
theorem refused_solve_stays_current :
    McOpfSession.new plainLib plainCompiler plainInstance plainOptions = .ok plainSession ∧
    ∃ session history, Reaches plainLib plainCompiler plainSession session history ∧
      (∃ error, (session.solveCancellable plainCompiler .declared ⟨false, false⟩
        plainOptimize).2 = .error error) ∧
      (session.solveCancellable plainCompiler .declared ⟨false, false⟩
        plainOptimize).1.currentResult.isSome = true := by
  obtain ⟨session, history, hreach, hattempts, hcurrent⟩ :=
    reaches_attempts (counterMax - 1) (by decide)
  refine ⟨new_plain, session, history, hreach, ?_⟩
  rcases solveCancellable_cases plainCompiler session .declared ⟨false, false⟩
    plainOptimize with ⟨-, error, hrefused⟩ | ⟨hlt, -⟩
  · rw [hrefused]
    exact ⟨⟨error, rfl⟩, currentResult_isSome.mpr hcurrent⟩
  · have hmax : 0 < counterMax := by decide
    omega

end McOpfSession

end Exhausted

end Tellegen.McOpf
