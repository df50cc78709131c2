import Mathlib.Algebra.Order.Ring.Nat
import Tellegen.Server.RateLimit

/-!
What the rate limit keeps. Where the lock is had in the order of the readings, a bucket holds what is live of the
accepted readings, and the limit is kept in every window. Out of that order a late request finds a bucket that has
been pruned too far.
-/

open Machine SlidingWindow

namespace Tellegen.Server

/-! ### Keys -/

theorem key_inj {request other : Request} :
    request.key = other.key ↔ request.endpoint = other.endpoint ∧ request.client = other.client := by
  constructor
  · intro h
    -- the names of the endpoints differ in their second letter
    have htext : request.key.toList = other.key.toList := congrArg String.toList h
    cases hfirst : request.endpoint with
    | solve =>
      cases hsecond : other.endpoint with
      | solve =>
        simp [Request.key, hfirst, hsecond, ExpensiveEndpoint.name] at htext
        exact ⟨rfl, String.toList_injective htext⟩
      | sensitivity => simp [Request.key, hfirst, hsecond, ExpensiveEndpoint.name] at htext
    | sensitivity =>
      cases hsecond : other.endpoint with
      | solve => simp [Request.key, hfirst, hsecond, ExpensiveEndpoint.name] at htext
      | sensitivity =>
        simp [Request.key, hfirst, hsecond, ExpensiveEndpoint.name] at htext
        exact ⟨rfl, String.toList_injective htext⟩
  · rintro ⟨hendpoint, hclient⟩
    rw [Request.key, Request.key, hendpoint, hclient]

/-! ### One request under the lock -/

theorem pruneRateBucket_eq (bucket : List ℕ) (now window : ℕ) :
    pruneRateBucket bucket now window = bucket.dropWhile (expired window now) := by
  rw [pruneRateBucket]
  congr 1
  funext seen
  rw [age, expired]
  split
  case isTrue hle =>
    rw [Option.any_some]
    apply decide_eq_decide.mpr
    omega
  case isFalse hgt =>
    rw [Option.any_none]
    apply (decide_eq_false _).symm
    omega

theorem live_pruneRateBucket {window now now' : ℕ} (h : now' ≤ now) (bucket : List ℕ) :
    live window now (pruneRateBucket bucket now' window) = live window now bucket := by
  rw [pruneRateBucket_eq, live_dropWhile h]

theorem pruneRateBucket_sublist (bucket : List ℕ) (now window : ℕ) :
    (pruneRateBucket bucket now window).Sublist bucket := List.dropWhile_sublist _

/-- What a bucket comes to when nothing is pruned. -/
def entered (request : Request) (accepted : Bool) (buckets : RateBuckets) (key : String) : List ℕ :=
  if key = request.key ∧ accepted = true then buckets.bucket key ++ [request.now] else buckets.bucket key

/-- A decision as the later ones see it: what has been pruned has expired for them. -/
structure Decided (config : RateLimitConfig) (buckets : RateBuckets) (request : Request) (decision : Decision) :
    Prop where
  accepted : decision.result.isOk = decide ((pruneRateBucket (buckets.bucket request.key) request.now
    (request.endpoint.limit config).window).length < (request.endpoint.limit config).events)
  live : ∀ key now, (key = request.key ∨ decision.cleaned = true → request.now ≤ now) →
    live (request.endpoint.limit config).window now (decision.buckets.bucket key) =
      live (request.endpoint.limit config).window now (entered request decision.result.isOk buckets key)
  sub : ∀ key, (decision.buckets.bucket key).Sublist (entered request decision.result.isOk buckets key)

theorem put_self (buckets : RateBuckets) (key : String) (bucket : List ℕ) :
    (buckets.put key bucket).bucket key = bucket := Function.update_self ..

theorem put_of_ne (buckets : RateBuckets) {key other : String} (h : other ≠ key) (bucket : List ℕ) :
    (buckets.put key bucket).bucket other = buckets.bucket other := Function.update_of_ne h _ _

theorem entered_self (request : Request) (buckets : RateBuckets) :
    entered request true buckets request.key = buckets.bucket request.key ++ [request.now] :=
  if_pos ⟨rfl, rfl⟩

theorem entered_refused (request : Request) (buckets : RateBuckets) (key : String) :
    entered request false buckets key = buckets.bucket key := if_neg fun h => nomatch h.2

theorem entered_of_ne (request : Request) (accepted : Bool) (buckets : RateBuckets) {key : String}
    (h : key ≠ request.key) : entered request accepted buckets key = buckets.bucket key :=
  if_neg fun hsame => h hsame.1

theorem checkExpensiveRateLimit_decided (cap : Option ℕ) (config : RateLimitConfig) (buckets : RateBuckets)
    (request : Request) :
    Decided config buckets request (checkExpensiveRateLimit cap config buckets request) := by
  set window := (request.endpoint.limit config).window with hwindow
  set pruned := pruneRateBucket (buckets.bucket request.key) request.now window with hpruned
  have hlive : ∀ {now : ℕ}, request.now ≤ now →
      live window now pruned = live window now (buckets.bucket request.key) :=
    fun h => live_pruneRateBucket h _
  have hsub : pruned.Sublist (buckets.bucket request.key) := pruneRateBucket_sublist _ _ _
  -- an accepted request, before any cleanup
  have hput : ∀ key now, (key = request.key → request.now ≤ now) →
      live window now ((buckets.put request.key (pruned ++ [request.now])).bucket key) =
        live window now (entered request true buckets key) := by
    intro key now hnow
    by_cases hkey : key = request.key
    · rw [hkey, put_self, entered_self, live_append, live_append, hlive (hnow hkey)]
    · rw [put_of_ne buckets hkey, entered_of_ne request true buckets hkey]
  have hputSub : ∀ key, ((buckets.put request.key (pruned ++ [request.now])).bucket key).Sublist
      (entered request true buckets key) := by
    intro key
    by_cases hkey : key = request.key
    · rw [hkey, put_self, entered_self]
      exact hsub.append_right _
    · rw [put_of_ne buckets hkey, entered_of_ne request true buckets hkey]
  rw [checkExpensiveRateLimit]
  dsimp only
  rw [← hwindow, ← hpruned]
  split
  case isTrue hfull =>
    constructor
    case accepted =>
      apply (decide_eq_false _).symm
      exact not_lt.mpr hfull
    case live =>
      intro key now hnow
      change live window now _ = live window now (entered request false buckets key)
      rw [entered_refused]
      by_cases hkey : key = request.key
      · rw [hkey, put_self, hlive (hnow (Or.inl hkey))]
      · rw [put_of_ne buckets hkey]
    case sub =>
      intro key
      change List.Sublist _ (entered request false buckets key)
      rw [entered_refused]
      by_cases hkey : key = request.key
      · rw [hkey, put_self]
        exact hsub
      · rw [put_of_ne buckets hkey]
  case isFalse hroom =>
    have haccepted : decide (pruned.length < (request.endpoint.limit config).events) = true :=
      decide_eq_true (not_le.mp hroom)
    split
    case isTrue =>
      constructor
      case accepted => exact haccepted.symm
      case live =>
        intro key now hnow
        change live window now (pruneRateBucket _ request.now window) = _
        rw [live_pruneRateBucket (hnow (Or.inr rfl))]
        exact hput key now fun _ => hnow (Or.inr rfl)
      case sub => exact fun key => (pruneRateBucket_sublist _ _ _).trans (hputSub key)
    case isFalse =>
      constructor
      case accepted => exact haccepted.symm
      case live => exact fun key now hnow => hput key now fun hkey => hnow (Or.inl hkey)
      case sub => exact hputSub

/-! ### Runs in the order of the readings -/

/-- No request of the same client and endpoint, and none that has cleaned up, has read a later time. -/
def Timely (log : List LogEntry) (request : Request) : Prop :=
  ∀ entry ∈ log, (entry.request.endpoint = request.endpoint ∧ entry.request.client = request.client) ∨
    entry.cleaned = true → entry.request.now ≤ request.now

def InOrder (s : RateState) : RateLabel → Prop
  | .arrives .. => True
  | .locks i => ∀ request, s.waiting[i]? = some request → Timely s.log request

/-- Every step of the schedule has the lock in order. -/
def RunsInOrder (cap : Option ℕ) (config : RateLimitConfig) : RateState → List RateLabel → Prop
  | _, [] => True
  | s, label :: rest => InOrder s label ∧ RunsInOrder cap config (rateStep cap config s label) rest

instance (log : List LogEntry) (request : Request) : Decidable (Timely log request) :=
  inferInstanceAs (Decidable (∀ entry ∈ log, _ → _))

instance decidableInOrder (s : RateState) : (label : RateLabel) → Decidable (InOrder s label)
  | .arrives .. => isTrue trivial
  | .locks i => inferInstanceAs (Decidable (∀ request, request ∈ s.waiting[i]? → Timely s.log request))

instance decidableRunsInOrder (cap : Option ℕ) (config : RateLimitConfig) :
    (s : RateState) → (schedule : List RateLabel) → Decidable (RunsInOrder cap config s schedule)
  | _, [] => isTrue trivial
  | s, label :: rest =>
    have := decidableRunsInOrder cap config (rateStep cap config s label) rest
    inferInstanceAs (Decidable (InOrder s label ∧ _))

theorem acceptedAt_append (log : List LogEntry) (entry : LogEntry) (endpoint : ExpensiveEndpoint)
    (client : String) :
    acceptedAt (log ++ [entry]) endpoint client = acceptedAt log endpoint client ++
      if entry.accepted = true ∧ entry.request.endpoint = endpoint ∧ entry.request.client = client then
        [entry.request.now] else [] := by
  have hiff : (entry.accepted && entry.request.endpoint == endpoint && entry.request.client == client) = true ↔
      entry.accepted = true ∧ entry.request.endpoint = endpoint ∧ entry.request.client = client := by
    rw [Bool.and_eq_true, Bool.and_eq_true, beq_iff_eq, beq_iff_eq, and_assoc]
  rw [acceptedAt, List.filter_append, List.map_append]
  congr 1
  split
  case isTrue h =>
    rw [List.filter_singleton, hiff.mpr h]
    rfl
  case isFalse h =>
    rw [List.filter_singleton, Bool.eq_false_iff.mpr fun hsame => h (hiff.mp hsame)]
    rfl

theorem acceptedAt_concat (log : List LogEntry) (entry : LogEntry) (other : Request) :
    acceptedAt (log ++ [entry]) other.endpoint other.client = acceptedAt log other.endpoint other.client ++
      if entry.accepted = true ∧ other.key = entry.request.key then [entry.request.now] else [] := by
  have hiff : other.key = entry.request.key ↔
      entry.request.endpoint = other.endpoint ∧ entry.request.client = other.client := by
    rw [eq_comm, key_inj]
  rw [acceptedAt_append]
  simp only [hiff]

theorem entered_eq (request : Request) (accepted : Bool) (buckets : RateBuckets) (key : String) :
    entered request accepted buckets key =
      buckets.bucket key ++ if accepted = true ∧ key = request.key then [request.now] else [] := by
  rw [entered]
  by_cases hboth : accepted = true ∧ key = request.key
  · rw [if_pos ⟨hboth.2, hboth.1⟩, if_pos hboth]
  · rw [if_neg (fun hsame => hboth ⟨hsame.2, hsame.1⟩), if_neg hboth, List.append_nil]

/-- The buckets hold accepted readings only, in the order of the lock. -/
def HoldsAccepted (buckets : RateBuckets) (log : List LogEntry) : Prop :=
  ∀ request : Request, (buckets.bucket request.key).Sublist (acceptedAt log request.endpoint request.client)

theorem Decided.sub_accepted {config : RateLimitConfig} {buckets : RateBuckets} {request : Request}
    {decision : Decision} (hdecision : Decided config buckets request decision) {log : List LogEntry}
    (h : HoldsAccepted buckets log) :
    HoldsAccepted decision.buckets (log ++ [⟨request, decision.result.isOk, decision.cleaned⟩]) := by
  intro other
  have hsub := hdecision.sub other.key
  rw [entered_eq] at hsub
  rw [acceptedAt_concat]
  exact hsub.trans ((h other).append_right _)

theorem mem_acceptedAt {log : List LogEntry} {endpoint : ExpensiveEndpoint} {client : String} {now : ℕ}
    (h : now ∈ acceptedAt log endpoint client) : ∃ entry ∈ log,
      (entry.request.endpoint = endpoint ∧ entry.request.client = client) ∧ entry.request.now = now := by
  obtain ⟨entry, hentry, hnow⟩ := List.mem_map.mp h
  obtain ⟨hmem, hsame⟩ := List.mem_filter.mp hentry
  rw [Bool.and_eq_true, Bool.and_eq_true, beq_iff_eq, beq_iff_eq] at hsame
  exact ⟨entry, hmem, ⟨hsame.1.2, hsame.2⟩, hnow⟩

theorem Timely.le {log : List LogEntry} {request : Request} (h : Timely log request) {now : ℕ}
    (hnow : now ∈ acceptedAt log request.endpoint request.client) : now ≤ request.now := by
  obtain ⟨entry, hentry, hsame, rfl⟩ := mem_acceptedAt hnow
  exact h entry hentry (Or.inl hsame)

/-- A request is accepted where fewer than the limit were accepted in the window before it, and none after. -/
def Admits (config : RateLimitConfig) (before : List LogEntry) (entry : LogEntry) : Prop :=
  let limit := entry.request.endpoint.limit config
  let accepted := acceptedAt before entry.request.endpoint entry.request.client
  entry.accepted = decide ((live limit.window entry.request.now accepted).length < limit.events) ∧
    ∀ seen ∈ accepted, seen ≤ entry.request.now

/-- The buckets hold what is live of the accepted readings, as far as a timely request can see. -/
structure Tracked (config : RateLimitConfig) (s : RateState) : Prop where
  live : ∀ request, Timely s.log request →
    live (request.endpoint.limit config).window request.now (s.buckets.bucket request.key) =
      live (request.endpoint.limit config).window request.now
        (acceptedAt s.log request.endpoint request.client)
  ordered : ∀ endpoint client, (acceptedAt s.log endpoint client).Pairwise fun first second => first ≤ second
  sub : ∀ request : Request, (s.buckets.bucket request.key).Sublist
    (acceptedAt s.log request.endpoint request.client)
  admits : Grounded (Admits config) s.log
  limited : ∀ endpoint client, Grounded (fun before now =>
      (SlidingWindow.live (endpoint.limit config).window now before).length < (endpoint.limit config).events)
    (acceptedAt s.log endpoint client)

theorem tracked_start (config : RateLimitConfig) : Tracked config .start := by
  constructor
  case live => exact fun _ _ => rfl
  case ordered => exact fun _ _ => List.Pairwise.nil
  case sub => exact fun _ => List.Sublist.refl _
  case admits => exact grounded_nil
  case limited => exact fun _ _ => grounded_nil

variable {cap : Option ℕ} {config : RateLimitConfig} {s s' : RateState} {request : Request}

theorem Tracked.pruned (h : Tracked config s) (hrequest : Timely s.log request) :
    pruneRateBucket (s.buckets.bucket request.key) request.now (request.endpoint.limit config).window =
      SlidingWindow.live (request.endpoint.limit config).window request.now
        (acceptedAt s.log request.endpoint request.client) := by
  rw [pruneRateBucket_eq, dropWhile_eq_live ((h.ordered _ _).sublist (h.sub request)), h.live request hrequest]

/-- The windows of the endpoints have one length. -/
def OneWindow (config : RateLimitConfig) : Prop := config.solve.window = config.sensitivity.window

theorem OneWindow.limit (h : OneWindow config) (first second : ExpensiveEndpoint) :
    (first.limit config).window = (second.limit config).window := by
  have hsolve : ∀ endpoint : ExpensiveEndpoint, (endpoint.limit config).window = config.solve.window := by
    intro endpoint
    cases endpoint with
    | solve => rfl
    | sensitivity => exact h.symm
  rw [hsolve first, hsolve second]

theorem Tracked.decided (h : Tracked config s) (hwindow : OneWindow config) (hrequest : Timely s.log request)
    {decision : Decision} (hdecision : Decided config s.buckets request decision) (clock : ℕ)
    (waiting : List Request) :
    Tracked config { clock, waiting, buckets := decision.buckets
                     log := s.log ++ [⟨request, decision.result.isOk, decision.cleaned⟩] } := by
  have haccepted := hdecision.accepted
  rw [h.pruned hrequest] at haccepted
  have hentered := acceptedAt_concat s.log ⟨request, decision.result.isOk, decision.cleaned⟩
  dsimp only at hentered
  have htimely : ∀ {other : Request},
      Timely (s.log ++ [⟨request, decision.result.isOk, decision.cleaned⟩]) other → Timely s.log other :=
    fun hother entry hmem => hother entry (List.mem_append_left _ hmem)
  constructor
  case live =>
    intro other hother
    have hlater : other.key = request.key ∨ decision.cleaned = true → request.now ≤ other.now := by
      intro hcase
      apply hother ⟨request, decision.result.isOk, decision.cleaned⟩ (List.mem_append_right _ List.mem_cons_self)
      exact hcase.imp_left fun hkey => key_inj.mp hkey.symm
    have hlive := hdecision.live other.key other.now hlater
    rw [hwindow.limit request.endpoint other.endpoint] at hlive
    change SlidingWindow.live _ _ (decision.buckets.bucket other.key) = _
    rw [hlive, entered_eq, hentered other, live_append, live_append, h.live other (htimely hother)]
  case ordered =>
    intro endpoint client
    change (acceptedAt (s.log ++ [_]) endpoint client).Pairwise _
    rw [hentered ⟨endpoint, client, 0⟩]
    split
    case isTrue hboth =>
      obtain ⟨hendpoint, hclient⟩ := key_inj.mp hboth.2.symm
      rw [List.pairwise_append]
      refine ⟨h.ordered _ _, List.pairwise_singleton _ _, ?_⟩
      intro seen hseen now hnow
      rw [List.mem_singleton.mp hnow]
      apply hrequest.le
      rw [hendpoint, hclient]
      exact hseen
    case isFalse =>
      rw [List.append_nil]
      exact h.ordered _ _
  case sub => exact hdecision.sub_accepted h.sub
  case admits => exact h.admits.concat ⟨haccepted, fun seen hseen => hrequest.le hseen⟩
  case limited =>
    intro endpoint client
    change Grounded _ (acceptedAt (s.log ++ [_]) endpoint client)
    rw [hentered ⟨endpoint, client, 0⟩]
    split
    case isTrue hboth =>
      obtain ⟨hendpoint, hclient⟩ := key_inj.mp hboth.2.symm
      apply (h.limited endpoint client).concat
      rw [hboth.1] at haccepted
      have hroom := of_decide_eq_true haccepted.symm
      rw [hendpoint, hclient] at hroom
      exact hroom
    case isFalse =>
      rw [List.append_nil]
      exact h.limited endpoint client

theorem Tracked.step (h : Tracked config s) (hwindow : OneWindow config) {label : RateLabel}
    (horder : InOrder s label) : Tracked config (rateStep cap config s label) := by
  cases label with
  | arrives endpoint client elapsed =>
    rw [rateStep]
    split
    · exact ⟨h.live, h.ordered, h.sub, h.admits, h.limited⟩
    · exact ⟨h.live, h.ordered, h.sub, h.admits, h.limited⟩
  | locks i =>
    rw [rateStep]
    split
    case h_1 => exact h
    case h_2 request hrequest =>
      exact h.decided hwindow (horder request hrequest) (checkExpensiveRateLimit_decided cap config _ _) _ _

theorem Tracked.run (h : Tracked config s) (hwindow : OneWindow config) {schedule : List RateLabel}
    (horder : RunsInOrder cap config s schedule) : Tracked config (Machine.run (rateStep cap config) s schedule) := by
  induction schedule generalizing s with
  | nil => exact h
  | cons label rest ih => exact ih (h.step hwindow horder.1) horder.2

/-! ### Runs without cleaning up -/

def LogEntry.verdict (entry : LogEntry) : Request × Bool := (entry.request, entry.accepted)

theorem acceptedAt_congr {log log' : List LogEntry}
    (h : log'.map LogEntry.verdict = log.map LogEntry.verdict) (endpoint : ExpensiveEndpoint) (client : String) :
    acceptedAt log' endpoint client = acceptedAt log endpoint client := by
  have hverdicts : ∀ log : List LogEntry, acceptedAt log endpoint client =
      ((log.map LogEntry.verdict).filter fun verdict => verdict.2 && verdict.1.endpoint == endpoint
        && verdict.1.client == client).map fun verdict => verdict.1.now := by
    intro log
    rw [List.filter_map, List.map_map, acceptedAt]
    rfl
  rw [hverdicts, hverdicts, h]

/-- Two states that differ in their buckets, the second of a run that never cleans up. -/
structure Alike (s s' : RateState) : Prop where
  clock : s'.clock = s.clock
  waiting : s'.waiting = s.waiting
  verdicts : s'.log.map LogEntry.verdict = s.log.map LogEntry.verdict
  unclean : ∀ entry ∈ s'.log, entry.cleaned = false

theorem Alike.timely (h : Alike s s') (hrequest : Timely s.log request) : Timely s'.log request := by
  intro entry hentry hsame
  rw [h.unclean entry hentry, or_iff_left Bool.false_ne_true] at hsame
  have hmem : entry.verdict ∈ s.log.map LogEntry.verdict := by
    rw [← h.verdicts]
    exact List.mem_map_of_mem hentry
  obtain ⟨other, hother, hverdict⟩ := List.mem_map.mp hmem
  have hrequests : other.request = entry.request := congrArg Prod.fst hverdict
  rw [← hrequests] at hsame ⊢
  exact hrequest other hother (Or.inl hsame)

theorem checkExpensiveRateLimit_unclean (buckets : RateBuckets) :
    (checkExpensiveRateLimit none config buckets request).cleaned = false := by
  rw [checkExpensiveRateLimit]
  dsimp only
  split
  · rfl
  · rfl

theorem Alike.step (h : Alike s s') (hs : Tracked config s) (hs' : Tracked config s') {label : RateLabel}
    (horder : InOrder s label) : Alike (rateStep cap config s label) (rateStep none config s' label) := by
  cases label with
  | arrives endpoint client elapsed =>
    rw [rateStep, rateStep, h.clock, h.waiting]
    split
    · exact ⟨rfl, rfl, h.verdicts, h.unclean⟩
    · exact ⟨rfl, rfl, h.verdicts, h.unclean⟩
  | locks i =>
    rw [rateStep, rateStep, h.waiting]
    split
    case h_1 => exact h
    case h_2 request hrequest =>
      have htimely := horder request hrequest
      have hfirst := (checkExpensiveRateLimit_decided cap config s.buckets request).accepted
      have hsecond := (checkExpensiveRateLimit_decided none config s'.buckets request).accepted
      rw [hs.pruned htimely] at hfirst
      rw [hs'.pruned (h.timely htimely), acceptedAt_congr h.verdicts, ← hfirst] at hsecond
      constructor
      case clock => exact h.clock
      case waiting => rfl
      case verdicts =>
        dsimp only
        rw [List.map_append, List.map_append, h.verdicts, List.map_singleton, List.map_singleton,
          LogEntry.verdict, LogEntry.verdict, hsecond]
      case unclean =>
        intro entry hentry
        obtain hentry | hentry := List.mem_append.mp hentry
        · exact h.unclean entry hentry
        · rw [List.mem_singleton.mp hentry]
          exact checkExpensiveRateLimit_unclean s'.buckets

theorem Alike.inOrder (h : Alike s s') {label : RateLabel} (horder : InOrder s label) : InOrder s' label := by
  cases label with
  | arrives endpoint client elapsed => trivial
  | locks i =>
    intro request hrequest
    rw [h.waiting] at hrequest
    exact h.timely (horder request hrequest)

theorem Alike.run (h : Alike s s') (hwindow : OneWindow config) (hs : Tracked config s) (hs' : Tracked config s')
    {schedule : List RateLabel} (horder : RunsInOrder cap config s schedule) :
    Alike (Machine.run (rateStep cap config) s schedule) (Machine.run (rateStep none config) s' schedule) := by
  induction schedule generalizing s s' with
  | nil => exact h
  | cons label rest ih =>
    obtain ⟨hlabel, hrest⟩ := horder
    exact ih (h.step hs hs' hlabel) (hs.step hwindow hlabel) (hs'.step hwindow (h.inOrder hlabel)) hrest

/-! ### Runs in any order -/

/-- What holds however late a request has the lock: no bucket is longer than its limit, and a request is refused
only after as many were accepted for its client and endpoint. -/
structure Held (config : RateLimitConfig) (s : RateState) : Prop where
  short : ∀ request : Request, (s.buckets.bucket request.key).length ≤ (request.endpoint.limit config).events
  accepted : HoldsAccepted s.buckets s.log
  earned : Grounded (fun before entry => entry.accepted = false →
    (entry.request.endpoint.limit config).events ≤
      (acceptedAt before entry.request.endpoint entry.request.client).length) s.log

theorem short_checkExpensiveRateLimit {buckets : RateBuckets}
    (h : ∀ request : Request, (buckets.bucket request.key).length ≤ (request.endpoint.limit config).events)
    (other : Request) :
    ((checkExpensiveRateLimit cap config buckets request).buckets.bucket other.key).length ≤
      (other.endpoint.limit config).events := by
  have hput : ∀ bucket : List ℕ, bucket.length ≤ (request.endpoint.limit config).events →
      ((buckets.put request.key bucket).bucket other.key).length ≤ (other.endpoint.limit config).events := by
    intro bucket hbucket
    by_cases hkey : other.key = request.key
    · rw [hkey, put_self, (key_inj.mp hkey).1]
      exact hbucket
    · rw [put_of_ne buckets hkey]
      exact h other
  rw [checkExpensiveRateLimit]
  dsimp only
  split
  case isTrue => exact hput _ ((pruneRateBucket_sublist _ _ _).length_le.trans (h request))
  case isFalse hroom =>
    have hlonger := hput (_ ++ [request.now]) (List.length_append.trans_le (not_le.mp hroom))
    split
    · exact (pruneRateBucket_sublist _ _ _).length_le.trans hlonger
    · exact hlonger

theorem Held.step (h : Held config s) (label : RateLabel) : Held config (rateStep cap config s label) := by
  cases label with
  | arrives endpoint client elapsed =>
    rw [rateStep]
    split
    · exact ⟨h.short, h.accepted, h.earned⟩
    · exact ⟨h.short, h.accepted, h.earned⟩
  | locks i =>
    rw [rateStep]
    split
    case h_1 => exact h
    case h_2 request hrequest =>
      have hdecided := checkExpensiveRateLimit_decided cap config s.buckets request
      refine ⟨short_checkExpensiveRateLimit h.short, hdecided.sub_accepted h.accepted, h.earned.concat ?_⟩
      intro hrefused
      have hfull := hdecided.accepted.symm.trans hrefused
      apply le_trans (not_lt.mp (of_decide_eq_false hfull))
      exact ((pruneRateBucket_sublist _ _ _).trans (h.accepted request)).length_le

/-- Whatever the schedule and the cap, no bucket grows past its limit and no request is refused without as many
accepted before it. This is all that holds when the lock is had out of the order of the clock. -/
theorem rateRun_held (cap : Option ℕ) (config : RateLimitConfig) (schedule : List RateLabel) :
    Held config (rateRun cap config schedule) := by
  apply Machine.run_invariant (I := Held config)
  case hstep => exact fun s label h => h.step label
  case hstart => exact ⟨fun _ => Nat.zero_le _, fun _ => List.Sublist.refl _, grounded_nil⟩

/-! ### The limit -/

theorem rateLimitConfig_oneWindow (env : String → Option ℕ) : OneWindow (rateLimitConfig env) := rfl

/-- Where the lock is had in the order of the readings, the limit is kept in every window, a request is refused
for that many accepted ones in the window before it only, and to clean up changes no decision. The clock is read
before the lock is taken, so the condition is one on the schedule; where it fails, a window may hold more. -/
theorem rate_limit_kept (env : String → Option ℕ) (schedule : List RateLabel)
    (horder : RunsInOrder (some rateLimitBucketCap) (rateLimitConfig env) .start schedule) :
    let config := rateLimitConfig env
    let log := (rateRun (some rateLimitBucketCap) config schedule).log
    (∀ (endpoint : ExpensiveEndpoint) client start,
      (within (endpoint.limit config).window start (acceptedAt log endpoint client)).length ≤
        (endpoint.limit config).events) ∧
    (∀ before entry after, log = before ++ entry :: after → entry.accepted = false →
      (entry.request.endpoint.limit config).events ≤
        ((acceptedAt before entry.request.endpoint entry.request.client).filter fun seen =>
          decide (seen ≤ entry.request.now ∧
            entry.request.now < seen + (entry.request.endpoint.limit config).window)).length) ∧
    (rateRun none config schedule).log.map LogEntry.verdict = log.map LogEntry.verdict := by
  intro config log
  have hwindow := rateLimitConfig_oneWindow env
  have htracked := (tracked_start config).run hwindow horder
  refine ⟨?_, ?_, ?_⟩
  · intro endpoint client start
    exact length_within_le (htracked.limited endpoint client) start
  · intro before entry after hsplit hrefused
    obtain ⟨hdecided, hbefore⟩ := htracked.admits before entry after hsplit
    rw [hrefused] at hdecided
    apply le_trans (not_lt.mp (of_decide_eq_false hdecided.symm))
    apply le_of_eq
    congr 1
    apply List.filter_congr
    intro seen hseen
    rw [expired, ← decide_not]
    apply decide_eq_decide.mpr
    rw [not_le, and_iff_right (hbefore seen hseen)]
  · have halike : Alike .start .start := ⟨rfl, rfl, rfl, fun _ hentry => absurd hentry List.not_mem_nil⟩
    exact (halike.run hwindow (tracked_start config) (tracked_start config) horder).verdicts

/-- Six requests a second apart and one more seconds later, each with the lock before the next comes. -/
def busySchedule : List RateLabel :=
  (List.replicate 6 [.arrives .solve "a" (10 ^ 9), .locks 0]).flatten ++ [.arrives .solve "a" (6 * 10 ^ 9), .locks 0]

/-- The sixth is refused, for the five accepted before it. -/
theorem rate_limit_kept_busy :
    let config := rateLimitConfig fun _ => none
    let log := (rateRun (some rateLimitBucketCap) config busySchedule).log
    log.map LogEntry.accepted = [true, true, true, true, true, false, true] ∧
      (∀ start, (within (10 ^ 10) start (acceptedAt log .solve "a")).length ≤ 5) ∧
      5 ≤ ((acceptedAt (log.take 5) .solve "a").filter fun seen =>
        decide (seen ≤ 6 * 10 ^ 9 ∧ 6 * 10 ^ 9 < seen + 10 ^ 10)).length ∧
      (rateRun none config busySchedule).log.map LogEntry.verdict = log.map LogEntry.verdict := by
  intro config log
  have horder : RunsInOrder (some rateLimitBucketCap) config .start busySchedule := by decide +kernel
  obtain ⟨hlimited, hrefused, hverdicts⟩ := rate_limit_kept (fun _ => none) busySchedule horder
  have hsixth : log = log.take 5 ++ ⟨⟨.solve, "a", 6 * 10 ^ 9⟩, false, false⟩ :: log.drop 6 := by decide +kernel
  exact ⟨by decide +kernel, hlimited .solve "a", hrefused _ _ _ hsixth rfl, hverdicts⟩

/-- Five requests at once, one after twelve seconds, and one that has read the clock after five but has the lock
last. -/
def lateSchedule : List RateLabel :=
  List.replicate 5 (.arrives .solve "a" 0) ++ List.replicate 5 (.locks 0) ++
    [.arrives .solve "a" (5 * 10 ^ 9), .arrives .solve "a" (7 * 10 ^ 9), .locks 1, .locks 0]

/-- Six requests are accepted within ten seconds, of five allowed. -/
theorem rate_limit_exceeded_late :
    ¬ (within (10 ^ 10) 0
      (acceptedAt (rateRun (some rateLimitBucketCap) (rateLimitConfig fun _ => none) lateSchedule).log .solve
        "a")).length ≤ 5 := by
  decide +kernel

end Tellegen.Server
