import Tellegen.MultiLoads

/-!
The rows of a case are those of the session's operating point whenever nothing
is pending, as long as no failed call leaves an edit staged that the session
does not have.
-/

set_option linter.unusedSectionVars false

namespace Tellegen.MultiLoads

variable {N S : Type} [DecidableEq N]

/-! ### Overlays -/

theorem overlay_key (edits : List (McLoadPowerEdit N)) (row : LoadRow N) :
    (overlay edits row).key = row.key := by
  unfold overlay
  split <;> rfl

theorem overlay_base (edits : List (McLoadPowerEdit N)) (row : LoadRow N) :
    (overlay edits row).basePW = row.basePW ∧ (overlay edits row).baseQVar = row.baseQVar := by
  unfold overlay
  split <;> exact ⟨rfl, rfl⟩

theorem overlay_overlay (edits sent : List (McLoadPowerEdit N)) (row : LoadRow N) :
    overlay edits (overlay sent row) = overlay edits row := by
  have hkey := overlay_key sent row
  rw [overlay, hkey, overlay]
  unfold overlay
  split <;> split <;> rfl

theorem map_overlay_overlay (edits sent : List (McLoadPowerEdit N)) (rows : List (LoadRow N)) :
    (rows.map (overlay sent)).map (overlay edits) = rows.map (overlay edits) := by
  rw [List.map_map]
  apply List.map_congr_left
  intro row _
  exact overlay_overlay edits sent row

theorem map_overlay_key (edits : List (McLoadPowerEdit N)) (rows : List (LoadRow N)) :
    (rows.map (overlay edits)).map LoadRow.key = rows.map LoadRow.key := by
  rw [List.map_map]
  apply List.map_congr_left
  intro row _
  exact overlay_key edits row

theorem overlay_of_find {edits : List (McLoadPowerEdit N)} {row : LoadRow N}
    {edit : McLoadPowerEdit N} (h : edits.find? (fun e => e.key = row.key) = some edit) :
    overlay edits row = { row with pW := edit.pW, qVar := edit.qVar } := by
  simp only [overlay, h]

theorem overlay_of_none {edits : List (McLoadPowerEdit N)} {row : LoadRow N}
    (h : edits.find? (fun e => e.key = row.key) = none) :
    overlay edits row = { row with pW := row.basePW, qVar := row.baseQVar } := by
  simp only [overlay, h]

theorem overlay_congr {edits other : List (McLoadPowerEdit N)} {row : LoadRow N}
    (h : edits.find? (fun e => e.key = row.key) = other.find? fun e => e.key = row.key) :
    overlay edits row = overlay other row := by
  simp only [overlay, h]

/-! ### Staging an edit -/

def staged (edits : List (McLoadPowerEdit N)) (row : LoadRow N) (key : String × ℕ) (pW qVar : N) :
    List (McLoadPowerEdit N) :=
  if pW = row.basePW ∧ qVar = row.baseQVar then edits.filter fun edit => edit.key ≠ key
  else (edits.filter fun edit => edit.key ≠ key) ++ [⟨key.1, key.2, pW, qVar⟩]

theorem find_filter_other {edits : List (McLoadPowerEdit N)} {key other : String × ℕ}
    (h : other ≠ key) :
    (edits.filter fun edit => edit.key ≠ key).find? (fun edit => edit.key = other) =
      edits.find? fun edit => edit.key = other := by
  rw [List.find?_filter]
  congr 1
  funext edit
  by_cases hkey : edit.key = other
  · simp [hkey, h]
  · simp [hkey]

theorem find_filter_self (edits : List (McLoadPowerEdit N)) (key : String × ℕ) :
    (edits.filter fun edit => edit.key ≠ key).find? (fun edit => edit.key = key) = none := by
  rw [List.find?_eq_none]
  intro edit hedit
  simpa using (List.mem_filter.mp hedit).2

theorem find_staged_other {edits : List (McLoadPowerEdit N)} {row : LoadRow N}
    {key other : String × ℕ} (h : other ≠ key) (pW qVar : N) :
    (staged edits row key pW qVar).find? (fun edit => edit.key = other) =
      edits.find? fun edit => edit.key = other := by
  unfold staged
  split
  case isTrue => exact find_filter_other h
  case isFalse =>
    have hnew : McLoadPowerEdit.key ⟨key.1, key.2, pW, qVar⟩ ≠ other := fun heq => h heq.symm
    rw [List.find?_append, find_filter_other h, List.find?_singleton]
    simp [hnew]

theorem overlay_staged_self {edits : List (McLoadPowerEdit N)} {row : LoadRow N}
    {key : String × ℕ} {pW qVar : N} {base : LoadRow N} (hkey : row.key = key)
    (hbase : base.basePW = row.basePW ∧ base.baseQVar = row.baseQVar) :
    overlay (staged edits base key pW qVar) row = { row with pW, qVar } := by
  unfold staged
  split
  case isTrue hequal =>
    rw [overlay_of_none (by rw [hkey]; exact find_filter_self edits key), ← hbase.1, ← hbase.2,
      ← hequal.1, ← hequal.2]
  case isFalse =>
    have hnew : McLoadPowerEdit.key ⟨key.1, key.2, pW, qVar⟩ = key := rfl
    have hfind : ((edits.filter fun edit : McLoadPowerEdit N => edit.key ≠ key) ++
        [(⟨key.1, key.2, pW, qVar⟩ : McLoadPowerEdit N)]).find? (fun edit => edit.key = row.key) =
          some ⟨key.1, key.2, pW, qVar⟩ := by
      rw [hkey, List.find?_append, find_filter_self, List.find?_singleton]
      simp [hnew]
    exact overlay_of_find hfind

theorem staged_distinct {edits : List (McLoadPowerEdit N)}
    (h : (edits.map McLoadPowerEdit.key).Nodup) (row : LoadRow N) (key : String × ℕ)
    (pW qVar : N) : ((staged edits row key pW qVar).map McLoadPowerEdit.key).Nodup := by
  have hfilter : ((edits.filter fun edit => edit.key ≠ key).map McLoadPowerEdit.key).Nodup :=
    h.sublist (List.filter_sublist.map _)
  unfold staged
  split
  case isTrue => exact hfilter
  case isFalse =>
    rw [List.map_append, List.nodup_append]
    refine ⟨hfilter, List.nodup_singleton _, ?_⟩
    intro other hother new hnew
    obtain ⟨edit, hedit, rfl⟩ := List.mem_map.mp hother
    obtain rfl := List.mem_singleton.mp hnew
    have hne : edit.key ≠ key := by simpa using (List.mem_filter.mp hedit).2
    exact hne

theorem queued_rows {rows : List (LoadRow N)} (hunique : (rows.map LoadRow.key).Nodup)
    {edits : List (McLoadPowerEdit N)} {key : String × ℕ} {found : LoadRow N}
    (hfound : (rows.map (overlay edits)).find? (fun entry => entry.key = key) = some found)
    (pW qVar : N) :
    ((rows.map (overlay edits)).map fun entry : LoadRow N =>
        if entry.key = key then { entry with pW, qVar } else entry) =
      rows.map (overlay (staged edits found key pW qVar)) := by
  have hmem := List.mem_of_find?_eq_some hfound
  have hkey : found.key = key := by simpa using List.find?_some hfound
  obtain ⟨original, horiginal, rfl⟩ := List.mem_map.mp hmem
  rw [List.map_map]
  apply List.map_congr_left
  intro row hrow
  rw [Function.comp_apply, overlay_key]
  by_cases hrowkey : row.key = key
  · have hsame : row = original := by
      apply List.inj_on_of_nodup_map hunique hrow horiginal
      rw [hrowkey, ← hkey, overlay_key]
    subst hsame
    rw [if_pos hrowkey, overlay_staged_self hrowkey (overlay_base edits row)]
    unfold overlay
    split <;> rfl
  · rw [if_neg hrowkey]
    exact (overlay_congr (find_staged_other hrowkey pW qVar)).symm

/-! ### Runs -/

namespace MulticonductorCase

variable {c : MulticonductorCase N S} {h : History N}

/-- What every step preserves. -/
structure Tracks (c : MulticonductorCase N S) (h : History N) : Prop where
  /-- The rows show the staged edits. -/
  staged : ∀ session, c.mcSession = some session → session.Unique →
    c.mcLoadBranches = session.rows.map (overlay c.mcLoadEdits)
  idle : ∀ session, c.mcSession = some session → c.mcEditTimer = false →
    c.mcEditRunning = false → c.mcLoadBranches = session.rows
  running : c.mcEditRunning = c.flush.isSome
  listed : c.listed = true
  /-- A call of the current revision has sent the staged edits. -/
  sent : ∀ revision edits, c.flush = some (.solving revision edits) →
    revision ≤ c.mcEditRevision ∧ (revision = c.mcEditRevision → edits = c.mcLoadEdits)
  distinct : (c.mcLoadEdits.map McLoadPowerEdit.key).Nodup
  shown : h.succeeded = true → ∀ session, c.mcSession = some session →
    session.Unique ∧ c.result = some session.summary
  kept : ∀ session, c.mcSession = some session → session.Unique → h.reverted = []

/-- Nothing is reverted when the rows are fetched: the session has all staged edits. -/
def Clean (c : MulticonductorCase N S) : Event N S → Prop
  | .refetched true => ∀ session error, c.mcSession = some session →
      c.flush = some (.refetching error) → session.Unique →
        session.rows.map (overlay c.mcLoadEdits) = session.rows
  | _ => True

theorem unique_replaced {session next : Session N S} {edits : List (McLoadPowerEdit N)}
    {outcome : Except String S} (hok : session.replaceLoadPowers edits outcome = .ok next) :
    session.Unique ∧ next.Unique ∧ next.rows = session.rows.map (overlay edits) := by
  unfold Session.replaceLoadPowers at hok
  split at hok
  case isTrue hunique =>
    cases outcome with
    | error error => cases hok
    | ok summary =>
      obtain rfl := Except.ok.inj hok
      refine ⟨hunique, ?_, rfl⟩
      unfold Session.Unique
      rw [map_overlay_key]
      exact hunique
  case isFalse => cases hok

def queued (c : MulticonductorCase N S) (key : String × ℕ) (found : LoadRow N) (pW qVar : N) :
    MulticonductorCase N S :=
  { c with
    mcLoadBranches := c.mcLoadBranches.map fun entry =>
      if entry.key = key then { entry with pW, qVar } else entry
    mcLoadEdits := Tellegen.MultiLoads.staged c.mcLoadEdits found key pW qVar
    mcEditRevision := c.mcEditRevision + 1
    hasSnapshot := false
    hasSavedAt := false
    solving := true
    mcEditTimer := true }

theorem queue_cases (c : MulticonductorCase N S) (load : String) (branch : ℕ)
    (pW qVar : Option N) :
    (∃ error, c.queueMultiLoadPower load branch pW qVar = { c with error }) ∨
    ∃ found p q, c.mcLoadBranches.find? (fun entry => entry.key = (load, branch)) = some found ∧
      c.queueMultiLoadPower load branch pW qVar = c.queued (load, branch) found p q := by
  unfold queueMultiLoadPower
  split
  case h_1 => exact Or.inl ⟨_, rfl⟩
  case h_2 =>
    split
    case h_2 => exact Or.inl ⟨_, rfl⟩
    case h_1 p q =>
      split
      case h_1 => exact Or.inl ⟨_, rfl⟩
      case h_2 found hfound => exact Or.inr ⟨found, p, q, hfound, rfl⟩

theorem Tracks.withError (htracks : Tracks c h) (error : Option String) :
    Tracks { c with error } h :=
  ⟨htracks.staged, htracks.idle, htracks.running, htracks.listed, htracks.sent,
    htracks.distinct, htracks.shown, htracks.kept⟩

theorem Tracks.queue (htracks : Tracks c h) (load : String) (branch : ℕ) (pW qVar : Option N) :
    Tracks (c.step (.queue load branch pW qVar)) (h.next c (.queue load branch pW qVar)) := by
  unfold step History.next
  dsimp only
  rcases queue_cases c load branch pW qVar with ⟨error, hnext⟩ | ⟨found, p, q, hfound, hnext⟩
  · rw [hnext, if_pos rfl]
    exact htracks.withError error
  · have hrevision : (c.queued (load, branch) found p q).mcEditRevision ≠ c.mcEditRevision :=
      Nat.succ_ne_self _
    rw [hnext, if_neg hrevision]
    constructor
    case staged =>
      intro session hsession hunique
      have hrows := htracks.staged session hsession hunique
      rw [hrows] at hfound
      have hqueued := queued_rows hunique hfound p q
      rw [← hrows] at hqueued
      exact hqueued
    case idle => exact fun _ _ htimer => Bool.noConfusion htimer
    case running => exact htracks.running
    case listed => exact htracks.listed
    case sent =>
      intro revision edits hflush
      have hle := (htracks.sent revision edits hflush).1
      refine ⟨Nat.le_succ_of_le hle, ?_⟩
      intro hequal
      change revision = c.mcEditRevision + 1 at hequal
      omega
    case distinct => exact staged_distinct htracks.distinct _ _ _ _
    case shown => exact htracks.shown
    case kept =>
      intro session hsession hunique
      change h.reverted.filter _ = []
      rw [htracks.kept session hsession hunique, List.filter_nil]

theorem Tracks.flush (htracks : Tracks c h) (timer : Bool) :
    Tracks { c with mcEditTimer := timer }.flushMultiLoadPowers h := by
  unfold flushMultiLoadPowers
  split
  case isTrue hrunning =>
    refine ⟨htracks.staged, ?_, htracks.running, htracks.listed, htracks.sent, htracks.distinct,
      htracks.shown, htracks.kept⟩
    intro session _ _ hidle
    exact absurd hrunning (Bool.eq_false_iff.mp hidle)
  case isFalse hidle =>
    split
    case isTrue hnothing =>
      have hnone : c.mcSession = none := by
        have hlisted := htracks.listed
        simpa [hlisted] using hnothing
      refine ⟨?_, ?_, htracks.running, htracks.listed, htracks.sent, htracks.distinct, ?_, ?_⟩
      · intro session hsession
        rw [hnone] at hsession
        cases hsession
      · intro session hsession
        rw [hnone] at hsession
        cases hsession
      · intro _ session hsession
        rw [hnone] at hsession
        cases hsession
      · intro session hsession
        rw [hnone] at hsession
        cases hsession
    case isFalse =>
      refine ⟨htracks.staged, ?_, rfl, htracks.listed, ?_, htracks.distinct, htracks.shown,
        htracks.kept⟩
      · exact fun _ _ _ hrunning => Bool.noConfusion hrunning
      · intro revision edits hflush
        obtain ⟨rfl, rfl⟩ := Flush.solving.inj (Option.some.inj hflush)
        exact ⟨Nat.le_refl _, fun _ => rfl⟩

theorem Tracks.solved (htracks : Tracks c h) (outcome : Except String S) :
    Tracks (c.step (.solved outcome)) (h.next c (.solved outcome)) := by
  unfold step History.next
  dsimp only
  split
  case h_2 => exact htracks
  case h_1 session revision edits hsession hflush =>
    cases hanswer : session.replaceLoadPowers edits outcome with
    | error error =>
      refine ⟨htracks.staged, ?_, ?_, htracks.listed, ?_, htracks.distinct, ?_, htracks.kept⟩
      · intro other hother htimer hrunning
        exact htracks.idle other hother htimer hrunning
      · have hrunning := htracks.running
        rw [hflush] at hrunning
        exact hrunning
      · intro _ _ hother
        cases hother
      · exact fun hfalse => Bool.noConfusion hfalse
    | ok next =>
      obtain ⟨hunique, hnext, hrows⟩ := unique_replaced hanswer
      obtain ⟨hle, hsent⟩ := htracks.sent revision edits hflush
      have hstaged : c.mcLoadBranches = next.rows.map (overlay c.mcLoadEdits) := by
        rw [hrows, map_overlay_overlay]
        exact htracks.staged session hsession hunique
      have hkept := htracks.kept session hsession hunique
      unfold afterSolve
      simp only [htracks.listed, Bool.not_true, Bool.false_eq_true, if_false, Bool.true_and]
      by_cases hcurrent : revision = c.mcEditRevision
      · simp only [hcurrent, ne_eq, not_true_eq_false, if_false, decide_true]
        have hnextRows : c.mcLoadBranches = next.rows := by
          rw [hstaged, hrows, hsent hcurrent, map_overlay_overlay]
        constructor
        case staged =>
          intro other hother _
          obtain rfl := Option.some.inj hother
          exact hstaged
        case idle =>
          intro other hother _ _
          obtain rfl := Option.some.inj hother
          exact hnextRows
        case running => rfl
        case listed => rfl
        case sent => exact fun _ _ hother => by cases hother
        case distinct => exact htracks.distinct
        case shown =>
          intro _ other hother
          obtain rfl := Option.some.inj hother
          exact ⟨hnext, rfl⟩
        case kept => exact fun _ _ _ => hkept
      · simp only [hcurrent, ne_eq, not_false_eq_true, if_true, decide_false]
        constructor
        case staged =>
          intro other hother _
          obtain rfl := Option.some.inj hother
          exact hstaged
        case idle =>
          intro other _ _ hrunning
          have htrue := htracks.running
          rw [hflush] at htrue
          exact absurd htrue (Bool.eq_false_iff.mp hrunning)
        case running =>
          have htrue := htracks.running
          rw [hflush] at htrue
          exact htrue
        case listed => rfl
        case sent =>
          intro other edits' hother
          obtain ⟨rfl, rfl⟩ := Flush.solving.inj (Option.some.inj hother)
          exact ⟨Nat.le_refl _, fun _ => rfl⟩
        case distinct => exact htracks.distinct
        case shown => exact fun hfalse => Bool.noConfusion hfalse
        case kept => exact fun _ _ _ => hkept

theorem filter_reverts {rows : List (LoadRow N)} {edits : List (McLoadPowerEdit N)}
    (hdistinct : (edits.map McLoadPowerEdit.key).Nodup)
    (hrows : rows.map (overlay edits) = rows) :
    (edits.filter fun edit => Reverts rows edit) = [] := by
  rw [List.filter_eq_nil_iff]
  intro edit hedit hreverts
  obtain ⟨row, hrow, hkey, hpowers⟩ := of_decide_eq_true hreverts
  have hfixed : overlay edits row = row :=
    List.map_inj_left.mp (hrows.trans (List.map_id rows).symm) row hrow
  cases hfind : edits.find? fun e => e.key = row.key with
  | none =>
    rw [List.find?_eq_none] at hfind
    exact hfind edit hedit (decide_eq_true hkey.symm)
  | some found =>
    have hfoundKey : found.key = row.key := by simpa using List.find?_some hfind
    have hsame : found = edit := List.inj_on_of_nodup_map hdistinct
      (List.mem_of_find?_eq_some hfind) hedit (hfoundKey.trans hkey)
    rw [overlay_of_find hfind, hsame] at hfixed
    apply hpowers
    rw [← hfixed]

theorem Tracks.refetched (htracks : Tracks c h) {answers : Bool}
    (hclean : Clean c (.refetched answers)) :
    Tracks (c.step (.refetched answers)) (h.next c (.refetched answers)) := by
  unfold step History.next
  dsimp only
  split
  case h_2 => exact htracks
  case h_1 session error hsession hflush =>
    cases answers with
    | true =>
      have hrows : session.Unique → session.rows.map (overlay c.mcLoadEdits) = session.rows :=
        hclean session error hsession hflush
      constructor
      case staged =>
        intro other hother hunique
        obtain rfl := Option.some.inj (hsession.symm.trans hother)
        exact (hrows hunique).symm
      case idle =>
        intro other hother _ _
        obtain rfl := Option.some.inj (hsession.symm.trans hother)
        rfl
      case running => rfl
      case listed => exact htracks.listed
      case sent => exact fun _ _ hother => by cases hother
      case distinct => exact htracks.distinct
      case shown => exact htracks.shown
      case kept =>
        intro other hother hunique
        obtain rfl := Option.some.inj (hsession.symm.trans hother)
        change h.reverted ++ _ = []
        rw [htracks.kept session hsession hunique,
          filter_reverts htracks.distinct (hrows hunique), List.append_nil]
    | false =>
      constructor
      case staged => exact fun _ hother => by cases hother
      case idle => exact fun _ hother => by cases hother
      case running => rfl
      case listed => exact htracks.listed
      case sent => exact fun _ _ hother => by cases hother
      case distinct => exact List.nodup_nil
      case shown => exact fun _ _ hother => by cases hother
      case kept => exact fun _ hother => by cases hother

theorem tracks_step (htracks : Tracks c h) {event : Event N S} (hclean : Clean c event) :
    Tracks (c.step event) (h.next c event) := by
  cases event with
  | queue load branch pW qVar => exact htracks.queue load branch pW qVar
  | timer =>
    unfold step
    dsimp only
    split
    case isTrue => exact htracks.flush false
    case isFalse => exact htracks
  | retry =>
    unfold step
    dsimp only
    split
    case isTrue => exact htracks.flush c.mcEditTimer
    case isFalse => exact htracks
  | solved outcome => exact htracks.solved outcome
  | refetched answers => exact htracks.refetched hclean

/-- A case with a new session: its rows are at their base powers and nothing is staged. -/
structure Started (c : MulticonductorCase N S) (session : Session N S) : Prop where
  live : c.mcSession = some session
  rows : c.mcLoadBranches = session.rows
  base : ∀ row ∈ session.rows, row.pW = row.basePW ∧ row.qVar = row.baseQVar
  edits : c.mcLoadEdits = []
  timer : c.mcEditTimer = false
  running : c.mcEditRunning = false
  flush : c.flush = none
  listed : c.listed = true

theorem tracks_started {session : Session N S} (h : Started c session) :
    Tracks c ⟨false, [], []⟩ := by
  constructor
  case staged =>
    intro other hother _
    obtain rfl := Option.some.inj (h.live.symm.trans hother)
    rw [h.rows, h.edits]
    apply Eq.trans (List.map_id session.rows).symm
    apply List.map_congr_left
    intro row hrow
    change row = overlay [] row
    obtain ⟨hp, hq⟩ := h.base row hrow
    rw [overlay_of_none List.find?_nil]
    cases row with
    | mk load branch p q baseP baseQ =>
      obtain rfl : p = baseP := hp
      obtain rfl : q = baseQ := hq
      rfl
  case idle =>
    intro other hother _ _
    obtain rfl := Option.some.inj (h.live.symm.trans hother)
    exact h.rows
  case running =>
    rw [h.running, h.flush]
    rfl
  case listed => exact h.listed
  case sent =>
    intro revision edits hflush
    rw [h.flush] at hflush
    cases hflush
  case distinct =>
    rw [h.edits]
    exact List.nodup_nil
  case shown => exact fun hfalse => Bool.noConfusion hfalse
  case kept => exact fun _ _ _ => rfl

/-- The cases that clean steps lead to, with what has been shown on the way. -/
inductive Reaches (first : MulticonductorCase N S) : MulticonductorCase N S → History N → Prop
  | start : Reaches first first ⟨false, [], []⟩
  | step {reached : MulticonductorCase N S} {history : History N} (event : Event N S) :
      Reaches first reached history → Clean reached event →
      Reaches first (reached.step event) (history.next reached event)

/-- What is shown is the operating point of a live session, whenever nothing is pending. -/
structure Displayed (c : MulticonductorCase N S) (h : History N) : Prop where
  rows : ∀ session, c.mcSession = some session → c.mcEditTimer = false →
    c.mcEditRunning = false → c.mcLoadBranches = session.rows
  result : ∀ session, c.mcSession = some session → c.mcEditTimer = false →
    c.mcEditRunning = false → h.succeeded = true →
      c.result = some session.summary ∧ ∀ edit ∈ h.applied, edit ∉ h.reverted

/-- In every run in which no failed call leaves an edit staged that the session does not have, the
loads shown are the solved ones. -/
theorem displayed_are_solved {first : MulticonductorCase N S} {session : Session N S}
    (hfirst : Started first session) (hreach : Reaches first c h) : Displayed c h := by
  have htracks : Tracks c h := by
    induction hreach with
    | start => exact tracks_started hfirst
    | step event _ hclean ih => exact tracks_step ih hclean
  constructor
  case rows => exact htracks.idle
  case result =>
    intro session hsession _ _ hsucceeded
    obtain ⟨hunique, hresult⟩ := htracks.shown hsucceeded session hsession
    refine ⟨hresult, ?_⟩
    intro edit _ hreverted
    rw [htracks.kept session hsession hunique] at hreverted
    cases hreverted

end MulticonductorCase

/-! ### A retry of a failed call -/

def oneRow : LoadRow ℕ := ⟨"a", 0, 1, 0, 1, 0⟩

def oneLoad : MulticonductorCase ℕ Unit :=
  { mcSession := some ⟨[oneRow], ()⟩
    mcLoadBranches := [oneRow]
    mcLoadEdits := []
    mcEditRevision := 0
    mcEditTimer := false
    mcEditRunning := false
    solving := false
    result := some ()
    hasFullResult := false
    hasSnapshot := false
    hasSavedAt := false
    revisionGeneration := 0
    listed := true
    error := none
    errorRetry := none
    flush := none }

theorem oneLoad_started : MulticonductorCase.Started oneLoad ⟨[oneRow], ()⟩ :=
  ⟨rfl, rfl, by decide, rfl, rfl, rfl, rfl, rfl⟩

/-- An edit is solved. It is made again, the call fails and the rows are fetched, which takes it off
no row; then the retry succeeds. -/
theorem displayed_are_solved_oneLoad :
    ∃ c h, MulticonductorCase.Reaches oneLoad c h ∧ MulticonductorCase.Displayed c h ∧
      h.succeeded = true ∧ h.applied = [⟨"a", 0, 2, 0⟩] ∧ c.mcEditTimer = false ∧
      c.mcEditRunning = false ∧ c.mcLoadBranches = [{ oneRow with pW := 2 }] := by
  have hedit := ((@MulticonductorCase.Reaches.start _ _ _ oneLoad).step
    (.queue "a" 0 (some 2) (some 0)) trivial).step .timer trivial
  have hsolved := hedit.step (.solved (.ok ())) trivial
  have hfailed := ((hsolved.step (.queue "a" 0 (some 2) (some 0)) trivial).step .timer trivial).step
    (.solved (.error "did not converge")) trivial
  have hfetched := hfailed.step (.refetched true) (by
    rintro session error ⟨⟩ ⟨⟩ -
    rfl)
  have hreach := (hfetched.step .retry trivial).step (.solved (.ok ())) trivial
  exact ⟨_, _, hreach, MulticonductorCase.displayed_are_solved oneLoad_started hreach, rfl, rfl, rfl,
    rfl, rfl⟩

/-- An edit whose call fails, and then succeeds when it is retried. -/
def retriedEdit : List (MulticonductorCase.Event ℕ Unit) :=
  [.queue "a" 0 (some 2) (some 0), .timer, .solved (.error "did not converge"), .refetched true,
    .retry, .solved (.ok ())]

/-- After the retry the session has the edit, and its row shows the power before. -/
theorem retried_edit_is_not_displayed :
    MulticonductorCase.Started oneLoad ⟨[oneRow], ()⟩ ∧
    ∃ session, (Machine.run MulticonductorCase.step oneLoad retriedEdit).mcSession = some session ∧
      (Machine.run MulticonductorCase.step oneLoad retriedEdit).mcEditTimer = false ∧
      (Machine.run MulticonductorCase.step oneLoad retriedEdit).mcEditRunning = false ∧
      (Machine.run MulticonductorCase.step oneLoad retriedEdit).mcLoadBranches ≠ session.rows := by
  refine ⟨oneLoad_started, ⟨[{ oneRow with pW := 2 }], ()⟩, ?_⟩
  exact ⟨rfl, rfl, rfl, by decide⟩

end Tellegen.MultiLoads
