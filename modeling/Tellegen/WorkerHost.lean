import Mathlib.Algebra.Order.Ring.Rat
import Mathlib.Data.List.Nodup
import Tellegen.Lib.Machine

/-!
The host that serves engine requests from a worker. Callers, the worker and
the fallback host act in any order; each of their acts is one event.

Calls are numbered as they are made, and `requests` keeps their requests.
`trace` keeps what the host received, sent and settled, in order. Neither is
read by the host. `waiting` holds the calls whose promise the fallback host
has yet to settle, which it does once.
-/

namespace Tellegen

/-- The host asks of an operation only whether it runs a study document. -/
inductive EngineOp where
  | studyDocumentRun
  | other (name : String)
  deriving DecidableEq

structure EngineRequest (ρ : Type) where
  op : EngineOp
  fields : ρ
  deriving DecidableEq

structure TimedEngineValue (α : Type) where
  value : α
  engineMs : Option ℚ
  deriving DecidableEq

inductive WorkerResponse (α : Type) where
  | ok (id : ℕ) (value : α) (workerMs : Option ℚ)
  | error (id : ℕ) (error : String) (fatal : Bool)
  deriving DecidableEq

namespace WorkerResponse

variable {α : Type}

def id : WorkerResponse α → ℕ
  | .ok id _ _ | .error id _ _ => id

def outcome : WorkerResponse α → Except String (TimedEngineValue α)
  | .ok _ value workerMs => .ok ⟨value, workerMs⟩
  | .error _ message _ => .error message

/-- The error of an answer after which the worker cannot be trusted. -/
def trap : WorkerResponse α → Option String
  | .ok _ _ _ => none
  | .error _ message fatal => if fatal then some message else none

end WorkerResponse

structure PendingCall (ρ : Type) where
  call : ℕ
  req : EngineRequest ρ
  deriving DecidableEq

/-- `forward` tells a worker that never answered from one that was lost later. -/
structure Failed where
  forward : Bool
  error : String
  deriving DecidableEq

/-- What settles a call: a worker's answer, the loss of the worker, or the fallback host. -/
inductive SettledBy where
  | answer (id : ℕ)
  | loss
  | fallback
  deriving DecidableEq

inductive HostEntry (ρ α : Type) where
  | received (answer : WorkerResponse α)
  | posted (id : ℕ) (pending : PendingCall ρ)
  | stopPosted (id : ℕ)
  | terminated
  | retired (toFallback : Bool)
  | forwarded (pending : PendingCall ρ)
  | stopForwarded
  | settled (call : ℕ) (settledBy : SettledBy) (outcome : Except String (TimedEngineValue α))

inductive HostEvent (ρ α : Type) where
  | callTimed (req : EngineRequest ρ)
  | message (answer : WorkerResponse α)
  | workerError
  | messageError
  | requestStop
  | cancel (reason : String)
  | fallbackSettled (call : ℕ) (outcome : Except String (TimedEngineValue α))

structure WorkerHost (ρ α : Type) where
  seq : ℕ
  pending : List (ℕ × PendingCall ρ)
  answered : Bool
  failed : Option Failed
  waiting : List ℕ
  requests : List (EngineRequest ρ)
  trace : List (HostEntry ρ α)

namespace WorkerHost

variable {ρ α : Type}

def start : WorkerHost ρ α :=
  { seq := 0, pending := [], answered := false, failed := none, waiting := [],
    requests := [], trace := [] }

/-! ### Steps -/

def record (s : WorkerHost ρ α) (entries : List (HostEntry ρ α)) : WorkerHost ρ α :=
  { s with trace := s.trace ++ entries }

def forwardings (calls : List (PendingCall ρ)) : List (HostEntry ρ α) := calls.map .forwarded

def rejections (calls : List (PendingCall ρ)) (error : String) : List (HostEntry ρ α) :=
  calls.map fun call => .settled call.call .loss (.error error)

def stops (pending : List (ℕ × PendingCall ρ)) : List (HostEntry ρ α) :=
  (pending.filter fun pending => pending.2.req.op = .studyDocumentRun).map
    fun pending => .stopPosted pending.1

def forwardAll (s : WorkerHost ρ α) (calls : List (PendingCall ρ)) : WorkerHost ρ α :=
  { s with waiting := s.waiting ++ calls.map PendingCall.call
           trace := s.trace ++ forwardings calls }

/-- The worker is gone, and the page is told where its requests go. -/
def terminate (s : WorkerHost ρ α) (failed : Failed) : WorkerHost ρ α :=
  { s with pending := [], failed := some failed
           trace := s.trace ++ [.terminated, .retired failed.forward] }

/-- The worker never started, and its requests move to the fallback host. -/
def replay (s : WorkerHost ρ α) (error : String) : WorkerHost ρ α :=
  (s.terminate ⟨true, error⟩).forwardAll (s.pending.map Prod.snd)

/-- The worker's studies are lost with it. -/
def abandon (s : WorkerHost ρ α) (error : String) : WorkerHost ρ α :=
  (s.terminate ⟨false, error⟩).record (rejections (s.pending.map Prod.snd) error)

def fail (s : WorkerHost ρ α) (error : String) : WorkerHost ρ α :=
  if s.failed.isSome then s
  else if s.answered then s.abandon error
  else s.replay error

def cancel (s : WorkerHost ρ α) (reason : String) : WorkerHost ρ α :=
  if s.failed.isSome then s else s.abandon reason

def settlePending (s : WorkerHost ρ α) (answer : WorkerResponse α) : WorkerHost ρ α :=
  match s.pending.find? (·.1 = answer.id) with
  | none => s
  | some (_, pending) =>
    { s with pending := s.pending.eraseP (·.1 = answer.id)
             trace := s.trace ++
               [.settled pending.call (.answer answer.id) answer.outcome] }

/-- Any answer shows that the worker runs. -/
def hear (s : WorkerHost ρ α) (answer : WorkerResponse α) : WorkerHost ρ α :=
  { s with answered := true, trace := s.trace ++ [.received answer] }

def onmessage (s : WorkerHost ρ α) (answer : WorkerResponse α) : WorkerHost ρ α :=
  match answer.trap with
  | some error => ((s.hear answer).settlePending answer).fail error
  | none => (s.hear answer).settlePending answer

def callTimed (s : WorkerHost ρ α) (req : EngineRequest ρ) : WorkerHost ρ α :=
  let call : PendingCall ρ := ⟨s.requests.length, req⟩
  let s := { s with requests := s.requests ++ [req] }
  match s.failed with
  | some ⟨true, _⟩ => s.forwardAll [call]
  | some ⟨false, error⟩ => s.record (rejections [call] error)
  | none =>
    { s with seq := s.seq + 1, pending := s.pending ++ [(s.seq + 1, call)]
             trace := s.trace ++ [.posted (s.seq + 1) call] }

def requestStop (s : WorkerHost ρ α) : WorkerHost ρ α :=
  match s.failed with
  | some ⟨true, _⟩ => s.record (stops s.pending ++ [.stopForwarded])
  | _ => s.record (stops s.pending)

def fallbackSettled (s : WorkerHost ρ α) (call : ℕ)
    (outcome : Except String (TimedEngineValue α)) : WorkerHost ρ α :=
  if call ∈ s.waiting then
    { s with waiting := s.waiting.erase call
             trace := s.trace ++ [.settled call .fallback outcome] }
  else s

def step (s : WorkerHost ρ α) : HostEvent ρ α → WorkerHost ρ α
  | .callTimed req => s.callTimed req
  | .message answer => s.onmessage answer
  | .workerError => s.fail "engine worker failed"
  | .messageError => s.fail "engine worker message failed"
  | .requestStop => s.requestStop
  | .cancel reason => s.cancel reason
  | .fallbackSettled call outcome => s.fallbackSettled call outcome

end WorkerHost

/-! ### Reading a trace -/

namespace HostEntry

variable {ρ α : Type}

@[simp] def settledCall : HostEntry ρ α → Option ℕ
  | settled call .. => some call
  | _ => none

@[simp] def post : HostEntry ρ α → Option (ℕ × PendingCall ρ)
  | posted id pending => some (id, pending)
  | _ => none

@[simp] def forwardedCall : HostEntry ρ α → Option (PendingCall ρ)
  | forwarded pending => some pending
  | _ => none

end HostEntry

namespace WorkerHost

variable {ρ α : Type} {s : WorkerHost ρ α}

def settledCalls (s : WorkerHost ρ α) : List ℕ := s.trace.filterMap HostEntry.settledCall

def posts (s : WorkerHost ρ α) : List (ℕ × PendingCall ρ) := s.trace.filterMap HostEntry.post

def forwardedCalls (s : WorkerHost ρ α) : List (PendingCall ρ) :=
  s.trace.filterMap HostEntry.forwardedCall

def pendingCalls (s : WorkerHost ρ α) : List ℕ := s.pending.map fun pending => pending.2.call

/-- The calls made so far, in order. -/
def calls (s : WorkerHost ρ α) : List (PendingCall ρ) := s.requests.mapIdx PendingCall.mk

/-- The calls made so far under the ids the worker would get them with. -/
def numbered (s : WorkerHost ρ α) : List (ℕ × PendingCall ρ) :=
  s.calls.map fun call => (call.call + 1, call)

@[simp] theorem settledCall_rejections (calls : List (PendingCall ρ)) (error : String) :
    (rejections calls error : List (HostEntry ρ α)).filterMap HostEntry.settledCall =
      calls.map PendingCall.call := by
  simp [rejections, Function.comp_def, List.filterMap_eq_map']

@[simp] theorem post_rejections (calls : List (PendingCall ρ)) (error : String) :
    (rejections calls error : List (HostEntry ρ α)).filterMap HostEntry.post = [] := by
  simp [rejections]

@[simp] theorem forwardedCall_rejections (calls : List (PendingCall ρ)) (error : String) :
    (rejections calls error : List (HostEntry ρ α)).filterMap HostEntry.forwardedCall = [] := by
  simp [rejections]

@[simp] theorem settledCall_forwardings (calls : List (PendingCall ρ)) :
    (forwardings calls : List (HostEntry ρ α)).filterMap HostEntry.settledCall = [] := by
  simp [forwardings]

@[simp] theorem post_forwardings (calls : List (PendingCall ρ)) :
    (forwardings calls : List (HostEntry ρ α)).filterMap HostEntry.post = [] := by
  simp [forwardings]

@[simp] theorem forwardedCall_forwardings (calls : List (PendingCall ρ)) :
    (forwardings calls : List (HostEntry ρ α)).filterMap HostEntry.forwardedCall = calls := by
  simp [forwardings, Function.comp_def]

/-! ### Steps that settle and send nothing -/

/-- `s'` is `s` but for entries that neither settle a call nor send one, and perhaps a first
answer. -/
structure Quiet (s s' : WorkerHost ρ α) (entries : List (HostEntry ρ α)) : Prop where
  trace : s'.trace = s.trace ++ entries
  quiet : ∀ entry ∈ entries, entry.settledCall = none ∧ entry.post = none ∧
    entry.forwardedCall = none
  seq : s'.seq = s.seq
  pending : s'.pending = s.pending
  answered : s'.answered = false → s.answered = false
  failed : s'.failed = s.failed
  waiting : s'.waiting = s.waiting
  requests : s'.requests = s.requests

section Quiet

variable {s' : WorkerHost ρ α} {entries : List (HostEntry ρ α)}

theorem Quiet.noSettled (h : Quiet s s' entries) :
    entries.filterMap HostEntry.settledCall = [] :=
  List.filterMap_eq_nil_iff.mpr fun entry hentry => (h.quiet entry hentry).1

theorem Quiet.settledCalls (h : Quiet s s' entries) : s'.settledCalls = s.settledCalls := by
  simp [WorkerHost.settledCalls, h.trace, h.noSettled]

theorem Quiet.posts (h : Quiet s s' entries) : s'.posts = s.posts := by
  have hnone : entries.filterMap HostEntry.post = [] :=
    List.filterMap_eq_nil_iff.mpr fun entry hentry => (h.quiet entry hentry).2.1
  simp [WorkerHost.posts, h.trace, hnone]

theorem Quiet.forwardedCalls (h : Quiet s s' entries) : s'.forwardedCalls = s.forwardedCalls := by
  have hnone : entries.filterMap HostEntry.forwardedCall = [] :=
    List.filterMap_eq_nil_iff.mpr fun entry hentry => (h.quiet entry hentry).2.2
  simp [WorkerHost.forwardedCalls, h.trace, hnone]

theorem Quiet.calls (h : Quiet s s' entries) : s'.calls = s.calls := by
  simp [WorkerHost.calls, h.requests]

theorem Quiet.numbered (h : Quiet s s' entries) : s'.numbered = s.numbered := by
  simp [WorkerHost.numbered, h.calls]

end Quiet

theorem hear_quiet (s : WorkerHost ρ α) (answer : WorkerResponse α) :
    Quiet s (s.hear answer) [.received answer] := by
  constructor <;> simp [hear]

theorem stops_quiet (pending : List (ℕ × PendingCall ρ)) :
    ∀ entry ∈ (stops pending : List (HostEntry ρ α)), entry.settledCall = none ∧
      entry.post = none ∧ entry.forwardedCall = none := by
  intro entry hmem
  obtain ⟨call, -, rfl⟩ := List.mem_map.mp hmem
  simp

theorem requestStop_quiet (s : WorkerHost ρ α) : ∃ entries, Quiet s s.requestStop entries := by
  have hstops := stops_quiet (α := α) s.pending
  unfold requestStop
  split
  · refine ⟨stops s.pending ++ [.stopForwarded], ?_⟩
    constructor <;> try simp [record]
    intro entry hmem
    rcases hmem with hstop | rfl
    · exact hstops entry hstop
    · simp
  · refine ⟨stops s.pending, ?_⟩
    constructor <;> try simp [record]
    exact hstops

/-! ### Every call is in one place -/

/-- A call that a worker's answer settled was posted under the answer's id. -/
def OwnAnswers (trace : List (HostEntry ρ α)) : Prop :=
  ∀ call id outcome, .settled call (.answer id) outcome ∈ trace →
    ∃ answer pending, .received answer ∈ trace ∧ answer.id = id ∧ answer.outcome = outcome ∧
      .posted id pending ∈ trace ∧ pending.call = call

/-- A call is settled, or the worker has it, or the fallback host has it. -/
structure Accounted (s : WorkerHost ρ α) : Prop where
  balance : (s.settledCalls ++ s.pendingCalls ++ s.waiting).Perm (List.range s.requests.length)
  pendingPosted : ∀ id pending, (id, pending) ∈ s.pending → .posted id pending ∈ s.trace
  ownAnswers : OwnAnswers s.trace

theorem Accounted.extend {s' : WorkerHost ρ α} (h : Accounted s) {entries : List (HostEntry ρ α)}
    (htrace : s'.trace = s.trace ++ entries)
    (hbalance : (s.settledCalls ++ entries.filterMap HostEntry.settledCall ++ s'.pendingCalls ++
      s'.waiting).Perm (List.range s'.requests.length))
    (hpending : ∀ id pending, (id, pending) ∈ s'.pending →
      (id, pending) ∈ s.pending ∨ .posted id pending ∈ entries)
    (hanswers : ∀ call id outcome, .settled call (.answer id) outcome ∈ entries →
      ∃ answer pending, .received answer ∈ s.trace ∧ answer.id = id ∧ answer.outcome = outcome ∧
        (id, pending) ∈ s.pending ∧ pending.call = call) : Accounted s' := by
  constructor
  case balance => simpa [settledCalls, htrace] using hbalance
  case pendingPosted =>
    intro id pending hmem
    rw [htrace]
    rcases hpending id pending hmem with hold | hnew
    · exact List.mem_append_left _ (h.pendingPosted id pending hold)
    · exact List.mem_append_right _ hnew
  case ownAnswers =>
    intro call id outcome hmem
    rw [htrace] at hmem ⊢
    rcases List.mem_append.mp hmem with hold | hnew
    · obtain ⟨answer, pending, hreceived, hid, houtcome, hposted, hcall⟩ :=
        h.ownAnswers call id outcome hold
      exact ⟨answer, pending, List.mem_append_left _ hreceived, hid, houtcome,
        List.mem_append_left _ hposted, hcall⟩
    · obtain ⟨answer, pending, hreceived, hid, houtcome, hmine, hcall⟩ :=
        hanswers call id outcome hnew
      exact ⟨answer, pending, List.mem_append_left _ hreceived, hid, houtcome,
        List.mem_append_left _ (h.pendingPosted id pending hmine), hcall⟩

theorem Quiet.accounted {s' : WorkerHost ρ α} {entries : List (HostEntry ρ α)}
    (h : Quiet s s' entries) (hs : Accounted s) : Accounted s' := by
  refine hs.extend h.trace ?_ (fun _ _ hmem => .inl (h.pending ▸ hmem)) ?_
  · rw [pendingCalls, h.pending, h.waiting, h.requests, h.noSettled, List.append_nil]
    exact hs.balance
  · intro call id outcome hmem
    exact absurd (h.quiet _ hmem).1 (by simp)

theorem Accounted.abandon (h : Accounted s) (error : String) : Accounted (s.abandon error) := by
  have htrace : (s.abandon error).trace = s.trace ++ ([.terminated, .retired false] ++
      rejections (s.pending.map Prod.snd) error) := List.append_assoc ..
  refine h.extend htrace ?_ ?_ ?_
  · have hbalance := h.balance
    simpa [WorkerHost.abandon, terminate, WorkerHost.record, pendingCalls, List.filterMap_cons,
      Function.comp_def] using hbalance
  · simp [WorkerHost.abandon, terminate, WorkerHost.record]
  · simp [rejections]

theorem Accounted.replay (h : Accounted s) (error : String) : Accounted (s.replay error) := by
  have htrace : (s.replay error).trace = s.trace ++ ([.terminated, .retired true] ++
      forwardings (s.pending.map Prod.snd)) := List.append_assoc ..
  refine h.extend htrace ?_ ?_ ?_
  · refine List.perm_iff_count.mpr fun call => ?_
    have hcount := List.perm_iff_count.mp h.balance call
    simp [WorkerHost.replay, terminate, forwardAll, pendingCalls, List.filterMap_cons,
      Function.comp_def] at hcount ⊢
    omega
  · simp [WorkerHost.replay, terminate, forwardAll]
  · simp [forwardings]

theorem Accounted.fail (h : Accounted s) (error : String) : Accounted (s.fail error) := by
  unfold WorkerHost.fail
  split
  · exact h
  · split
    · exact h.abandon error
    · exact h.replay error

theorem Accounted.cancel (h : Accounted s) (reason : String) : Accounted (s.cancel reason) := by
  unfold WorkerHost.cancel
  split
  · exact h
  · exact h.abandon reason

theorem find?_split {β : Type} {p : β → Bool} {l : List β} {a : β} (h : l.find? p = some a) :
    p a ∧ ∃ before after, l = before ++ a :: after ∧ l.eraseP p = before ++ after := by
  obtain ⟨ha, before, after, hsplit, hbefore⟩ := List.find?_eq_some_iff_append.mp h
  refine ⟨ha, before, after, hsplit, ?_⟩
  rw [hsplit, List.eraseP_append_right _ (by simpa using hbefore), List.eraseP_cons_of_pos ha]

theorem Accounted.settlePending (h : Accounted s) {answer : WorkerResponse α}
    (hreceived : .received answer ∈ s.trace) : Accounted (s.settlePending answer) := by
  unfold WorkerHost.settlePending
  split
  case h_1 => exact h
  case h_2 id pending hfind =>
    obtain ⟨hid, before, after, hsplit, herase⟩ := find?_split hfind
    obtain rfl : id = answer.id := by simpa using hid
    have hmine : (answer.id, pending) ∈ s.pending := by simp [hsplit]
    refine h.extend rfl ?_ (fun id call hmem => .inl (List.mem_of_mem_eraseP hmem)) ?_
    · refine List.perm_iff_count.mpr fun call => ?_
      have hcount := List.perm_iff_count.mp h.balance call
      simp [pendingCalls, hsplit, List.count_cons] at hcount
      simp [pendingCalls, herase, List.count_cons]
      omega
    · intro call id outcome hmem
      obtain ⟨rfl, hanswer, rfl⟩ : call = pending.call ∧ id = answer.id ∧ outcome = answer.outcome := by
        simpa using hmem
      exact ⟨answer, pending, hreceived, hanswer.symm, rfl, hanswer ▸ hmine, rfl⟩

theorem Accounted.onmessage (h : Accounted s) (answer : WorkerResponse α) :
    Accounted (s.onmessage answer) := by
  have hreceived : .received answer ∈ (s.hear answer).trace := by simp [WorkerHost.hear]
  have hsettled := ((hear_quiet s answer).accounted h).settlePending hreceived
  unfold WorkerHost.onmessage
  split
  · exact hsettled.fail _
  · exact hsettled

theorem Accounted.callTimed (h : Accounted s) (req : EngineRequest ρ) :
    Accounted (s.callTimed req) := by
  have hcount := List.perm_iff_count.mp h.balance
  unfold WorkerHost.callTimed
  dsimp only
  split
  case h_1 =>
    refine h.extend rfl ?_ (fun _ _ hmem => .inl hmem) (by simp [forwardings])
    refine List.perm_iff_count.mpr fun call => ?_
    specialize hcount call
    simp [forwardAll, pendingCalls, List.range_succ, List.count_cons] at hcount ⊢
    omega
  case h_2 =>
    refine h.extend rfl ?_ (fun _ _ hmem => .inl hmem) (by simp [rejections])
    refine List.perm_iff_count.mpr fun call => ?_
    specialize hcount call
    simp [WorkerHost.record, pendingCalls, List.range_succ, List.count_cons] at hcount ⊢
    omega
  case h_3 =>
    refine h.extend rfl ?_ (by simp) (by simp)
    refine List.perm_iff_count.mpr fun call => ?_
    specialize hcount call
    simp [pendingCalls, List.range_succ, List.count_cons, List.filterMap_cons] at hcount ⊢
    omega

theorem Accounted.fallbackSettled (h : Accounted s) (call : ℕ)
    (outcome : Except String (TimedEngineValue α)) :
    Accounted (s.fallbackSettled call outcome) := by
  unfold WorkerHost.fallbackSettled
  split
  case isFalse => exact h
  case isTrue hwaiting =>
    refine h.extend rfl ?_ (fun _ _ hmem => .inl hmem) (by simp)
    refine List.perm_iff_count.mpr fun other => ?_
    have hcount := List.perm_iff_count.mp h.balance other
    have herase := (List.perm_cons_erase hwaiting).count_eq other
    simp [pendingCalls, List.count_cons] at hcount herase ⊢
    omega

theorem Accounted.step (h : Accounted s) (event : HostEvent ρ α) : Accounted (s.step event) := by
  cases event with
  | callTimed req => exact h.callTimed req
  | message answer => exact h.onmessage answer
  | workerError => exact h.fail _
  | messageError => exact h.fail _
  | requestStop =>
    obtain ⟨entries, hquiet⟩ := requestStop_quiet s
    exact hquiet.accounted h
  | cancel reason => exact h.cancel reason
  | fallbackSettled call outcome => exact h.fallbackSettled call outcome

/-! ### Where calls go -/

/-- The worker serves. Before its first answer it has every call made so far. -/
structure Live (s : WorkerHost ρ α) : Prop where
  failed : s.failed = none
  seq : s.seq = s.requests.length
  posts : s.posts = s.numbered
  forwarded : s.forwardedCalls = []
  waiting : s.waiting = []
  fresh : s.answered = false → s.pending = s.numbered ∧ s.settledCalls = []

/-- The worker never answered and was given up after `before`: the fallback host got every call,
in order, and settles them. -/
structure Replayed (before s : WorkerHost ρ α) : Prop where
  failed : ∃ error, s.failed = some ⟨true, error⟩
  pending : s.pending = []
  posts : s.posts = before.posts
  posted : s.posts <+: s.numbered
  forwarded : s.forwardedCalls = s.calls
  settled : ∀ call settledBy outcome, .settled call settledBy outcome ∈ s.trace →
    settledBy = .fallback

/-- The worker was lost after `before`, which lost its pending calls and all later ones. -/
structure Lost (before : WorkerHost ρ α) (error : String) (s : WorkerHost ρ α) : Prop where
  failed : s.failed = some ⟨false, error⟩
  pending : s.pending = []
  posts : s.posts = before.posts
  posted : s.posts <+: s.numbered
  forwarded : s.forwardedCalls = []
  waiting : s.waiting = []
  rejected : ∀ call, call ∈ before.pendingCalls ∨
    before.requests.length ≤ call ∧ call < s.requests.length →
    ∃ settledBy, .settled call settledBy (.error error) ∈ s.trace

theorem numbered_grows {s' : WorkerHost ρ α} (req : EngineRequest ρ)
    (hrequests : s'.requests = s.requests ++ [req]) : s.numbered <+: s'.numbered := by
  simp [numbered, calls, hrequests, List.mapIdx_append]

theorem Lost.callTimed {before : WorkerHost ρ α} {error : String} (h : Lost before error s)
    (req : EngineRequest ρ) : Lost before error (s.callTimed req) := by
  have hstep : s.callTimed req = { s with
      requests := s.requests ++ [req]
      trace := s.trace ++ rejections [⟨s.requests.length, req⟩] error } := by
    simp [WorkerHost.callTimed, h.failed, WorkerHost.record]
  rw [hstep]
  constructor
  case failed => exact h.failed
  case pending => exact h.pending
  case posts => simpa [WorkerHost.posts] using h.posts
  case posted =>
    refine List.IsPrefix.trans ?_ (numbered_grows (s := s) req rfl)
    simpa [WorkerHost.posts] using h.posted
  case forwarded => simpa [forwardedCalls] using h.forwarded
  case waiting => exact h.waiting
  case rejected =>
    intro call hcall
    by_cases hnew : call = s.requests.length
    · exact ⟨.loss, by simp [rejections, hnew]⟩
    · have hold : call ∈ before.pendingCalls ∨
          before.requests.length ≤ call ∧ call < s.requests.length := by
        refine hcall.imp_right fun hlater => ?_
        simp only [List.length_append, List.length_singleton] at hlater
        omega
      obtain ⟨settledBy, hmem⟩ := h.rejected call hold
      exact ⟨settledBy, List.mem_append_left _ hmem⟩

section Quiet

variable {s' : WorkerHost ρ α} {entries : List (HostEntry ρ α)}

theorem Quiet.live (h : Quiet s s' entries) (hs : Live s) : Live s' where
  failed := h.failed.trans hs.failed
  seq := by rw [h.seq, h.requests, hs.seq]
  posts := by rw [h.posts, h.numbered, hs.posts]
  forwarded := h.forwardedCalls.trans hs.forwarded
  waiting := h.waiting.trans hs.waiting
  fresh hanswered := by
    rw [h.pending, h.numbered, h.settledCalls]
    exact hs.fresh (h.answered hanswered)

theorem Quiet.replayed {before : WorkerHost ρ α} (h : Quiet s s' entries)
    (hs : Replayed before s) : Replayed before s' where
  failed := h.failed ▸ hs.failed
  pending := h.pending.trans hs.pending
  posts := h.posts.trans hs.posts
  posted := by
    rw [h.posts, h.numbered]
    exact hs.posted
  forwarded := by rw [h.forwardedCalls, h.calls, hs.forwarded]
  settled call settledBy outcome hmem := by
    rw [h.trace] at hmem
    rcases List.mem_append.mp hmem with hold | hnew
    · exact hs.settled call settledBy outcome hold
    · exact absurd (h.quiet _ hnew).1 (by simp)

theorem Quiet.lost {before : WorkerHost ρ α} {error : String} (h : Quiet s s' entries)
    (hs : Lost before error s) : Lost before error s' where
  failed := h.failed.trans hs.failed
  pending := h.pending.trans hs.pending
  posts := h.posts.trans hs.posts
  posted := by
    rw [h.posts, h.numbered]
    exact hs.posted
  forwarded := h.forwardedCalls.trans hs.forwarded
  waiting := h.waiting.trans hs.waiting
  rejected call hcall := by
    rw [h.requests] at hcall
    obtain ⟨settledBy, hmem⟩ := hs.rejected call hcall
    exact ⟨settledBy, h.trace ▸ List.mem_append_left _ hmem⟩

end Quiet

theorem settlePending_of_nil (h : s.pending = []) (answer : WorkerResponse α) :
    s.settlePending answer = s := by
  simp [settlePending, h]

theorem fail_of_failed (h : s.failed.isSome) (error : String) : s.fail error = s := by
  simp [fail, h]

theorem cancel_of_failed (h : s.failed.isSome) (reason : String) : s.cancel reason = s := by
  simp [cancel, h]

theorem onmessage_of_failed (hfailed : s.failed.isSome) (hpending : s.pending = [])
    (answer : WorkerResponse α) : s.onmessage answer = s.hear answer := by
  have hsettle : (s.hear answer).settlePending answer = s.hear answer :=
    settlePending_of_nil (s := s.hear answer) hpending answer
  unfold onmessage
  split
  · rw [hsettle]
    exact fail_of_failed (s := s.hear answer) hfailed _
  · exact hsettle

theorem Replayed.step {before : WorkerHost ρ α} (h : Replayed before s)
    (event : HostEvent ρ α) : Replayed before (s.step event) := by
  obtain ⟨error, hfailed⟩ := h.failed
  have hgone : s.failed.isSome := by simp [hfailed]
  cases event with
  | callTimed req =>
    have hstep : s.callTimed req = { s with
        requests := s.requests ++ [req]
        waiting := s.waiting ++ [s.requests.length]
        trace := s.trace ++ forwardings [⟨s.requests.length, req⟩] } := by
      simp [WorkerHost.callTimed, hfailed, forwardAll]
    simp only [WorkerHost.step]
    rw [hstep]
    constructor
    case failed => exact h.failed
    case pending => exact h.pending
    case posts => simpa [WorkerHost.posts] using h.posts
    case posted =>
      refine List.IsPrefix.trans ?_ (numbered_grows (s := s) req rfl)
      simpa [WorkerHost.posts] using h.posted
    case forwarded =>
      have hforwarded := h.forwarded
      simp only [forwardedCalls, calls] at hforwarded ⊢
      simp [hforwarded, List.mapIdx_append]
    case settled =>
      intro call settledBy outcome hmem
      exact h.settled call settledBy outcome (by simpa [forwardings] using hmem)
  | message answer =>
    simp only [WorkerHost.step, onmessage_of_failed hgone h.pending]
    exact (hear_quiet s answer).replayed h
  | workerError => simpa only [WorkerHost.step, fail_of_failed hgone] using h
  | messageError => simpa only [WorkerHost.step, fail_of_failed hgone] using h
  | requestStop =>
    obtain ⟨entries, hquiet⟩ := requestStop_quiet s
    exact hquiet.replayed h
  | cancel reason => simpa only [WorkerHost.step, cancel_of_failed hgone] using h
  | fallbackSettled call outcome =>
    simp only [WorkerHost.step, fallbackSettled]
    split
    · constructor
      case failed => exact h.failed
      case pending => exact h.pending
      case posts => simpa [WorkerHost.posts, List.filterMap_cons] using h.posts
      case posted => simpa [WorkerHost.posts, numbered, calls, List.filterMap_cons] using h.posted
      case forwarded => simpa [forwardedCalls, calls, List.filterMap_cons] using h.forwarded
      case settled =>
        intro other settledBy result hmem
        rcases List.mem_append.mp hmem with hold | hnew
        · exact h.settled other settledBy result hold
        · simp at hnew
          exact hnew.2.1
    · exact h

theorem Lost.step {before : WorkerHost ρ α} {error : String} (h : Lost before error s)
    (event : HostEvent ρ α) : Lost before error (s.step event) := by
  have hgone : s.failed.isSome := by simp [h.failed]
  cases event with
  | callTimed req => exact h.callTimed req
  | message answer =>
    simp only [WorkerHost.step, onmessage_of_failed hgone h.pending]
    exact (hear_quiet s answer).lost h
  | workerError => simpa only [WorkerHost.step, fail_of_failed hgone] using h
  | messageError => simpa only [WorkerHost.step, fail_of_failed hgone] using h
  | requestStop =>
    obtain ⟨entries, hquiet⟩ := requestStop_quiet s
    exact hquiet.lost h
  | cancel reason => simpa only [WorkerHost.step, cancel_of_failed hgone] using h
  | fallbackSettled call outcome =>
    simpa [WorkerHost.step, fallbackSettled, h.waiting] using h

theorem Live.callTimed (h : Live s) (req : EngineRequest ρ) : Live (s.callTimed req) := by
  have hstep : s.callTimed req = { s with
      requests := s.requests ++ [req]
      seq := s.seq + 1
      pending := s.pending ++ [(s.seq + 1, ⟨s.requests.length, req⟩)]
      trace := s.trace ++ [.posted (s.seq + 1) ⟨s.requests.length, req⟩] } := by
    simp [WorkerHost.callTimed, h.failed]
  have hnumbered : (s.callTimed req).numbered =
      s.numbered ++ [(s.seq + 1, ⟨s.requests.length, req⟩)] := by
    simp [hstep, numbered, calls, List.mapIdx_append, h.seq]
  constructor
  case failed => simp [hstep, h.failed]
  case seq => simp [hstep, h.seq]
  case posts =>
    rw [hnumbered, ← h.posts]
    simp [hstep, WorkerHost.posts]
  case forwarded => simpa [hstep, forwardedCalls, List.filterMap_cons] using h.forwarded
  case waiting => simp [hstep, h.waiting]
  case fresh =>
    intro hanswered
    obtain ⟨hpending, hsettled⟩ := h.fresh (by simpa [hstep] using hanswered)
    refine ⟨?_, by simpa [hstep, settledCalls, List.filterMap_cons] using hsettled⟩
    rw [hnumbered, ← hpending]
    simp [hstep]

theorem Live.settlePending (h : Live s) (hanswered : s.answered = true)
    (answer : WorkerResponse α) : Live (s.settlePending answer) := by
  unfold WorkerHost.settlePending
  split
  · exact h
  · constructor
    case failed => exact h.failed
    case seq => exact h.seq
    case posts => simpa [WorkerHost.posts, numbered, calls, List.filterMap_cons] using h.posts
    case forwarded => simpa [forwardedCalls, List.filterMap_cons] using h.forwarded
    case waiting => exact h.waiting
    case fresh => simp [hanswered]

theorem Live.abandon (h : Live s) (error : String) : Lost s error (s.abandon error) := by
  have htrace : (s.abandon error).trace = s.trace ++ ([.terminated, .retired false] ++
      rejections (s.pending.map Prod.snd) error) := List.append_assoc ..
  have hposts : (s.abandon error).posts = s.posts := by
    simp [WorkerHost.posts, htrace, List.filterMap_cons]
  constructor
  case failed => rfl
  case pending => rfl
  case posts => exact hposts
  case posted => exact hposts ▸ h.posts ▸ List.prefix_refl _
  case forwarded => simpa [forwardedCalls, htrace, List.filterMap_cons] using h.forwarded
  case waiting => exact h.waiting
  case rejected =>
    rintro call (hmem | ⟨hge, hlt⟩)
    · obtain ⟨pending, hpending, rfl⟩ := List.mem_map.mp hmem
      refine ⟨.loss, htrace ▸ List.mem_append_right _ (List.mem_append_right _ ?_)⟩
      exact List.mem_map_of_mem (List.mem_map_of_mem hpending)
    · exact absurd hlt (Nat.not_lt.mpr hge)

theorem Live.replay (h : Live s) (hanswered : s.answered = false) (error : String) :
    Replayed s (s.replay error) := by
  obtain ⟨hpending, hsettled⟩ := h.fresh hanswered
  have htrace : (s.replay error).trace = s.trace ++ ([.terminated, .retired true] ++
      forwardings (s.pending.map Prod.snd)) := List.append_assoc ..
  have hposts : (s.replay error).posts = s.posts := by
    simp [WorkerHost.posts, htrace, List.filterMap_cons]
  constructor
  case failed => exact ⟨error, rfl⟩
  case pending => rfl
  case posts => exact hposts
  case posted => exact hposts ▸ h.posts ▸ List.prefix_refl _
  case forwarded =>
    have hforwarded : (s.replay error).forwardedCalls =
        s.forwardedCalls ++ s.pending.map Prod.snd := by
      simp [forwardedCalls, htrace, List.filterMap_cons]
    rw [hforwarded, h.forwarded, hpending]
    simp [numbered, calls, WorkerHost.replay, terminate, forwardAll, Function.comp_def]
  case settled =>
    intro call settledBy outcome hmem
    have hold : .settled call settledBy outcome ∈ s.trace := by
      simpa [htrace, forwardings] using hmem
    have hcall : call ∈ s.settledCalls :=
      List.mem_filterMap.mpr ⟨_, hold, by simp⟩
    simp [hsettled] at hcall

theorem mem_pendingCalls_settlePending (answer : WorkerResponse α) {call : ℕ}
    (h : call ∈ s.pendingCalls) : call ∈ (s.settlePending answer).pendingCalls ∨
      .settled call (.answer answer.id) answer.outcome ∈ (s.settlePending answer).trace := by
  obtain ⟨⟨id, pending⟩, hmem, rfl⟩ := List.mem_map.mp h
  unfold settlePending
  split
  case h_1 => exact .inl h
  case h_2 found first hfind =>
    obtain ⟨-, before, after, hsplit, herase⟩ := find?_split hfind
    rw [hsplit] at hmem
    simp only [List.mem_append, List.mem_cons, Prod.mk.injEq] at hmem
    rcases hmem with hin | ⟨-, rfl⟩ | hin
    · exact .inl (List.mem_map.mpr ⟨(id, pending), by simp [herase, hin], rfl⟩)
    · exact .inr (by simp)
    · exact .inl (List.mem_map.mpr ⟨(id, pending), by simp [herase, hin], rfl⟩)

theorem Live.onmessage_trap (h : Live s) {answer : WorkerResponse α} {error : String}
    (htrap : answer.trap = some error) : Lost s error (s.onmessage answer) := by
  have hlive : Live ((s.hear answer).settlePending answer) :=
    ((hear_quiet s answer).live h).settlePending rfl answer
  have hanswered : ((s.hear answer).settlePending answer).answered = true := by
    unfold WorkerHost.settlePending
    split <;> rfl
  have houtcome : answer.outcome = .error error := by
    cases answer with
    | ok id value workerMs => simp [WorkerResponse.trap] at htrap
    | error id message fatal =>
      simp only [WorkerResponse.trap, Option.ite_none_right_eq_some, Option.some.injEq] at htrap
      rw [WorkerResponse.outcome, htrap.2]
  have hstep : s.onmessage answer = ((s.hear answer).settlePending answer).abandon error := by
    simp [onmessage, htrap, fail, hlive.failed, hanswered]
  have hlost := hlive.abandon error
  have hposts : ((s.hear answer).settlePending answer).posts = s.posts := by
    have hquiet := (hear_quiet s answer).posts
    unfold WorkerHost.settlePending
    split
    · exact hquiet
    · simpa [WorkerHost.posts, List.filterMap_cons] using hquiet
  have hrequests : ((s.hear answer).settlePending answer).requests = s.requests := by
    unfold WorkerHost.settlePending
    split <;> rfl
  rw [hstep]
  refine { hlost with posts := hlost.posts.trans hposts, rejected := ?_ }
  rintro call (hmem | hlater)
  · have hheard : call ∈ (s.hear answer).pendingCalls := hmem
    rcases mem_pendingCalls_settlePending answer hheard with hleft | hsettled
    · exact hlost.rejected call (.inl hleft)
    · refine ⟨.answer answer.id, ?_⟩
      rw [← houtcome]
      exact List.mem_append_left _ (List.mem_append_left _ hsettled)
  · exact hlost.rejected call (.inr (hrequests.symm ▸ hlater))

end WorkerHost

namespace HostEvent

variable {ρ α : Type}

def isMessage : HostEvent ρ α → Bool
  | message _ => true
  | _ => false

/-- The error of an event that ends a worker that has answered. -/
def failure : HostEvent ρ α → Option String
  | message answer => answer.trap
  | workerError => some "engine worker failed"
  | messageError => some "engine worker message failed"
  | _ => none

def cancellation : HostEvent ρ α → Option String
  | cancel reason => some reason
  | _ => none

end HostEvent

namespace WorkerHost

variable {ρ α : Type} {s : WorkerHost ρ α}

theorem Live.ends (h : Live s) (event : HostEvent ρ α) :
    (∀ error, event.failure = some error →
      if s.answered || event.isMessage then Lost s error (s.step event)
      else Replayed s (s.step event)) ∧
    ∀ reason, event.cancellation = some reason → Lost s reason (s.step event) := by
  have hfail : ∀ error, if s.answered then Lost s error (s.fail error)
      else Replayed s (s.fail error) := by
    intro error
    unfold WorkerHost.fail
    simp only [h.failed, Option.isSome_none, Bool.false_eq_true, if_false]
    split
    case isTrue => exact h.abandon error
    case isFalse hanswered => exact h.replay (by simpa using hanswered) error
  refine ⟨fun error hfailure => ?_, fun reason hcancel => ?_⟩
  · cases event with
    | message answer => simpa [HostEvent.isMessage, WorkerHost.step] using h.onmessage_trap hfailure
    | workerError =>
      obtain rfl : "engine worker failed" = error := by simpa [HostEvent.failure] using hfailure
      simpa [HostEvent.isMessage, WorkerHost.step] using hfail _
    | messageError =>
      obtain rfl : "engine worker message failed" = error := by
        simpa [HostEvent.failure] using hfailure
      simpa [HostEvent.isMessage, WorkerHost.step] using hfail _
    | callTimed | requestStop | cancel | fallbackSettled => simp [HostEvent.failure] at hfailure
  · cases event with
    | cancel reason' =>
      obtain rfl : reason' = reason := by simpa [HostEvent.cancellation] using hcancel
      simpa [WorkerHost.step, cancel, h.failed] using h.abandon reason'
    | callTimed | message | workerError | messageError | requestStop | fallbackSettled =>
      simp [HostEvent.cancellation] at hcancel

theorem Live.goesOn (h : Live s) {event : HostEvent ρ α} (hfailure : event.failure = none)
    (hcancel : event.cancellation = none) : Live (s.step event) := by
  cases event with
  | callTimed req => exact h.callTimed req
  | message answer =>
    have htrap : answer.trap = none := hfailure
    simp only [WorkerHost.step, onmessage, htrap]
    exact ((hear_quiet s answer).live h).settlePending rfl answer
  | workerError | messageError => simp [HostEvent.failure] at hfailure
  | requestStop =>
    obtain ⟨entries, hquiet⟩ := requestStop_quiet s
    exact hquiet.live h
  | cancel reason => simp [HostEvent.cancellation] at hcancel
  | fallbackSettled call outcome => simpa [WorkerHost.step, fallbackSettled, h.waiting] using h

/-- A host serves, or its calls were replayed, or they were lost. -/
def Settled (s : WorkerHost ρ α) : Prop :=
  Live s ∨ ∃ before, Replayed before s ∨ ∃ error, Lost before error s

theorem Settled.step (h : Settled s) (event : HostEvent ρ α) : Settled (s.step event) := by
  rcases h with hlive | ⟨before, hreplayed | ⟨error, hlost⟩⟩
  · cases hfailure : event.failure with
    | some error =>
      have hends := (hlive.ends event).1 error hfailure
      split at hends
      · exact .inr ⟨s, .inr ⟨error, hends⟩⟩
      · exact .inr ⟨s, .inl hends⟩
    | none =>
      cases hcancel : event.cancellation with
      | some reason => exact .inr ⟨s, .inr ⟨reason, (hlive.ends event).2 reason hcancel⟩⟩
      | none => exact .inl (hlive.goesOn hfailure hcancel)
  · exact .inr ⟨before, .inl (hreplayed.step event)⟩
  · exact .inr ⟨before, .inr ⟨error, hlost.step event⟩⟩

theorem Settled.live (h : Settled s) (hfailed : s.failed = none) : Live s := by
  rcases h with hlive | ⟨before, hreplayed | ⟨error, hlost⟩⟩
  · exact hlive
  · obtain ⟨error, hsome⟩ := hreplayed.failed
    simp [hfailed] at hsome
  · exact absurd (hfailed.symm.trans hlost.failed) (by simp)

theorem Settled.posted (h : Settled s) : s.posts <+: s.numbered := by
  rcases h with hlive | ⟨before, hreplayed | ⟨error, hlost⟩⟩
  · exact hlive.posts ▸ List.prefix_refl _
  · exact hreplayed.posted
  · exact hlost.posted

end WorkerHost

end Tellegen
