import Mathlib.Data.List.Infix
import Mathlib.Data.List.Nodup
import Tellegen.Lib.JsString
import Tellegen.Lib.Machine

/-!
The execution of tools on behalf of an agent. A call validates its input, runs
the adapter under a signal that its caller or a timer aborts, and answers with
a response that fits the output budget. An abortable call races the adapter
against the signal. A commit-aware call waits for the adapter alone, since
what it changed stays changed.

Each call is a machine of its own, and every wait is a point where other steps
can come between. What the adapter returns is data, known by what the code
asks of it: its JSON text, if it has one, and its properties, whose reading
does not throw.
-/

open JsString

namespace Tellegen

/-! ### Values and errors -/

inductive AbortReason where
  | abortError
  | timeoutError
  deriving DecidableEq

inductive Thrown where
  | toolError (code message : JsString)
  | aborted (reason : AbortReason)
  | error (message : JsString)
  | other
  deriving DecidableEq

/-- A number is carried by its text. Numbers that are not finite are no primitives here. -/
inductive Primitive where
  | null
  | string (value : JsString)
  | boolean (value : Bool)
  | number (text : JsString)
  deriving DecidableEq

inductive Property where
  | primitive (value : Primitive)
  | array (length : ℕ)
  | other
  deriving DecidableEq

/-- What `JSON.stringify` makes of a value: an error, nothing, or a text. -/
inductive JsonText where
  | throws
  | absent
  | text (value : JsString)
  deriving DecidableEq

structure ToolPayload where
  json : JsonText
  property : String → Property

abbrev Summary := List (String × Primitive)

inductive ResponseData where
  | result (payload : ToolPayload)
  | summary (fields : Summary)

inductive ToolResponse where
  | ok (data : ResponseData)
  | error (code message : JsString)

def ToolResponse.isOk : ToolResponse → Bool
  | .ok _ => true
  | .error .. => false

/-! ### Serialization -/

def Primitive.text : Primitive → JsString
  | .null => js "null"
  | .string value => quote value
  | .boolean value => if value then js "true" else js "false"
  | .number text => text

def fieldText (field : String × Primitive) : JsString :=
  quote (js field.1) ++ js ":" ++ field.2.text

def summaryText (fields : Summary) : JsString :=
  js "\x7b" ++ ((fields.map fieldText).intersperse (js ",")).flatten ++ js "\x7d"

def ResponseData.json : ResponseData → JsonText
  | .result payload => payload.json
  | .summary fields => .text (summaryText fields)

/-- `JSON.stringify` of a response, unless it throws. -/
def ToolResponse.serialize : ToolResponse → Option JsString
  | .ok data =>
    match data.json with
    | .throws => none
    | .absent => some (js "\x7b\"ok\":true\x7d")
    | .text text => some (js "\x7b\"ok\":true,\"data\":" ++ text ++ js "\x7d")
  | .error code message =>
    some (js "\x7b\"ok\":false,\"error\":\x7b\"code\":" ++ quote code ++ js ",\"message\":" ++
      quote message ++ js "\x7d\x7d")

/-! ### Responses -/

def maxErrorLength : ℕ := 320

def cleanMessage (message : JsString) : JsString :=
  let cleaned := trim (blankControls false message)
  if cleaned.length ≤ maxErrorLength then cleaned
  else cleaned.take (maxErrorLength - 1) ++ [0x2026]

def safeError : Thrown → ToolResponse
  | .toolError code message => .error code (cleanMessage message)
  | .aborted .abortError => .error (js "CANCELLED") (js "tool execution was cancelled")
  | .aborted .timeoutError => .error (js "TIMEOUT") (js "tool execution timed out")
  | .error message => .error (js "TOOL_FAILED") (cleanMessage message)
  | .other => .error (js "TOOL_FAILED") (cleanMessage (js "tool execution failed"))

def invalidOutput : ToolResponse :=
  .error (js "INVALID_OUTPUT") (js "tool returned a value that is not JSON serializable")

def outputTooLarge (outputBudget : ℕ) : ToolResponse :=
  .error (js "OUTPUT_TOO_LARGE") (js "tool output exceeded " ++ ofNat outputBudget ++
    js " characters; narrow the query or lower its limit")

def withinBudget (response : ToolResponse) (outputBudget : ℕ) : ToolResponse :=
  match response.serialize with
  | none => invalidOutput
  | some serialized =>
    if serialized.length ≤ outputBudget then response else outputTooLarge outputBudget

def copyPrimitive (source : ToolPayload) (target : Summary) (key : String) : Summary :=
  match source.property key with
  | .primitive value => target ++ [(key, value)]
  | _ => target

def minimalSummary : Summary :=
  [("completed", .boolean true), ("output_truncated", .boolean true)]

def summaryKeys (toolName : String) : List String :=
  if "study".toList <:+: toolName.toList then
    ["id", "revision", "experiment", "active_goal", "inspected_state", "recommended_state",
      "applied_state"]
  else if toolName = "propose_capacity_plan" then ["proposal_id", "revision", "exact_solves"]
  else if toolName = "apply_capacity_plan" then ["proposal_id", "revision", "exact_phi"]
  else if toolName = "update_case" ∨ toolName = "reset_case" then ["revision", "formulation"]
  else if toolName = "focus_network" ∨ toolName = "select_case" then
    ["revision", "case_id", "state_id"]
  else []

def appliedCount (toolName : String) (result : ToolPayload) : Summary :=
  match result.property "applied" with
  | .array length =>
    if toolName = "apply_capacity_plan" then
      [("applied_count", .number (ofNat length))]
    else []
  | _ => []

def summaryOf (toolName : String) (result : ToolPayload) : Summary :=
  (summaryKeys toolName).foldl (copyPrimitive result) minimalSummary ++
    appliedCount toolName result

/-- The bounded success of a change that has already been made. -/
def committedSuccess (toolName : String) (result : ToolPayload) (outputBudget : ℕ) :
    ToolResponse :=
  let compact := withinBudget (.ok (.summary (summaryOf toolName result))) outputBudget
  if compact.isOk then compact else .ok (.summary minimalSummary)

/-! ### Limits -/

structure ExecutionLimits where
  outputBudget : ℕ
  timeoutMs : ℕ
  budget : 256 ≤ outputBudget ∧ outputBudget ≤ 1500
  timeout : 1 ≤ timeoutMs ∧ timeoutMs ≤ 300000

/-! ### Calls -/

inductive Completion where
  | abortable
  | commitAware
  deriving DecidableEq

structure Tool where
  toolName : String
  title : String
  completion : Completion

/-- A call as it begins. `parent` is the reason of a signal that had aborted before, `input` the
JSON text of the input, `started` what the adapter threw before it returned a promise, and
`meanwhile` the reason of an abort while it ran up to there. -/
structure Invocation where
  tool : Tool
  parent : Option (Option AbortReason)
  validated : Except Thrown Unit
  input : JsonText
  started : Except Thrown Unit
  meanwhile : Option (Option AbortReason)
  now : ℕ

inductive Phase where
  | waiting
  | settled (outcome : Except Thrown ToolPayload)
  | returned (response : ToolResponse)

/-- `adapter` is how the promise of the adapter settled. The code keeps the id as the text
`tellegen-tool-` before the number. -/
structure ToolCall where
  id : ℕ
  tool : Tool
  startedAt : ℕ
  recordedInput : Option JsString
  aborted : Option AbortReason
  adapter : Option (Except Thrown ToolPayload)
  phase : Phase

inductive ActivityEvent where
  | started (id : ℕ) (toolName title : String) (startedAt : ℕ)
  | finished (id : ℕ) (toolName title : String) (startedAt finishedAt : ℕ)
      (input : Option JsString) (response : ToolResponse)

def ActivityEvent.id : ActivityEvent → ℕ
  | .started id .. | .finished id .. => id

inductive ToolEvent where
  | begin (invocation : Invocation)
  | parentAborted (call : ℕ) (reason : Option AbortReason)
  | timedOut (call : ℕ)
  | adapterSettled (call : ℕ) (outcome : Except Thrown ToolPayload)
  | resumed (call : ℕ) (now : ℕ)

structure ToolSession where
  calls : List ToolCall
  activity : List ActivityEvent

def ToolSession.start : ToolSession := { calls := [], activity := [] }

/-- Only a reason of the platform is relayed as it is. -/
def relayed (reason : Option AbortReason) : AbortReason := reason.getD .abortError

def recordedCopy (recordValidatedInput : Bool) (input : JsonText) : Option JsString :=
  match recordValidatedInput, input with
  | true, .text text => if text.length ≤ 16384 then some text else none
  | _, _ => none

def caught (outputBudget : ℕ) (error : Thrown) : ToolResponse :=
  withinBudget (safeError error) outputBudget

def accepted (tool : Tool) (outputBudget : ℕ) (result : ToolPayload) : ToolResponse :=
  let response := withinBudget (.ok (.result result)) outputBudget
  if ¬ response.isOk ∧ tool.completion = .commitAware then
    committedSuccess tool.toolName result outputBudget
  else response

namespace ToolCall

/-- The first abort of the signal. It wins the race of an abortable call that is not settled. -/
def abort (c : ToolCall) (reason : AbortReason) : ToolCall :=
  match c.phase, c.aborted with
  | .returned _, _ | _, some _ => c
  | .waiting, none =>
    match c.tool.completion with
    | .abortable =>
      { c with aborted := some reason, phase := .settled (.error (.aborted reason)) }
    | .commitAware => { c with aborted := some reason }
  | .settled _, none => { c with aborted := some reason }

def settle (c : ToolCall) (outcome : Except Thrown ToolPayload) : ToolCall :=
  match c.phase, c.adapter with
  | .waiting, none => { c with adapter := some outcome, phase := .settled outcome }
  | .settled _, none => { c with adapter := some outcome }
  | _, _ => c

def answer (c : ToolCall) (outputBudget : ℕ) : Except Thrown ToolPayload → ToolResponse
  | .error error => caught outputBudget error
  | .ok result =>
    match c.tool.completion, c.aborted with
    | .abortable, some reason => caught outputBudget (.aborted reason)
    | _, _ => accepted c.tool outputBudget result

def finish (c : ToolCall) (response : ToolResponse) : ToolCall :=
  { c with phase := .returned response }

def finished (c : ToolCall) (response : ToolResponse) (now : ℕ) : ActivityEvent :=
  .finished c.id c.tool.toolName c.tool.title c.startedAt now c.recordedInput response

end ToolCall

namespace ToolSession

def modify (s : ToolSession) (call : ℕ) (f : ToolCall → ToolCall) : ToolSession :=
  { s with calls := s.calls.modify call f }

/-- A call up to its first wait, and its response where it has ended by then. -/
def opening (limits : ExecutionLimits) (recordValidatedInput : Bool) (id : ℕ)
    (invocation : Invocation) : ToolCall × Option ToolResponse :=
  let aborted := invocation.parent.map relayed
  let call : ToolCall :=
    { id, tool := invocation.tool, startedAt := invocation.now, recordedInput := none, aborted
      adapter := none, phase := .waiting }
  match aborted with
  | some reason => (call, some (caught limits.outputBudget (.aborted reason)))
  | none =>
    match invocation.validated with
    | .error error => (call, some (caught limits.outputBudget error))
    | .ok () =>
      let call :=
        { call with
          recordedInput := recordedCopy recordValidatedInput invocation.input
          aborted := invocation.meanwhile.map relayed }
      match invocation.started with
      | .error error => (call, some (caught limits.outputBudget error))
      | .ok () => (call, none)

def begin (limits : ExecutionLimits) (recordValidatedInput : Bool) (s : ToolSession)
    (invocation : Invocation) : ToolSession :=
  let tool := invocation.tool
  let id := s.calls.length + 1
  let started := .started id tool.toolName tool.title invocation.now
  match opening limits recordValidatedInput id invocation with
  | (call, none) => { calls := s.calls ++ [call], activity := s.activity ++ [started] }
  | (call, some response) =>
    { calls := s.calls ++ [call.finish response]
      activity := s.activity ++ [started, call.finished response invocation.now] }

def resume (limits : ExecutionLimits) (s : ToolSession) (call now : ℕ) : ToolSession :=
  match s.calls[call]? with
  | none => s
  | some c =>
    match c.phase with
    | .settled outcome =>
      let response := c.answer limits.outputBudget outcome
      { calls := s.calls.set call (c.finish response)
        activity := s.activity ++ [c.finished response now] }
    | _ => s

def step (limits : ExecutionLimits) (recordValidatedInput : Bool) (s : ToolSession) :
    ToolEvent → ToolSession
  | .begin invocation => begin limits recordValidatedInput s invocation
  | .parentAborted call reason => s.modify call fun c => c.abort (relayed reason)
  | .timedOut call => s.modify call fun c => c.abort .timeoutError
  | .adapterSettled call outcome => s.modify call fun c => c.settle outcome
  | .resumed call now => resume limits s call now

end ToolSession

/-! ### Every response fits -/

def Fits (response : ToolResponse) (outputBudget : ℕ) : Prop :=
  ∃ text, response.serialize = some text ∧ text.length ≤ outputBudget

theorem length_error {code message : JsString} (hcode : ∀ u ∈ code, Plain u)
    (hmessage : ∀ u ∈ message, Plain u) :
    ∃ text, (ToolResponse.error code message).serialize = some text ∧
      text.length = code.length + message.length + 45 := by
  refine ⟨_, rfl, ?_⟩
  have hopen : (js "\x7b\"ok\":false,\"error\":\x7b\"code\":").length = 28 := by decide
  have hmiddle : (js ",\"message\":").length = 11 := by decide
  have hclose : (js "\x7d\x7d").length = 2 := by decide
  simp only [List.length_append, length_quote_plain hcode, length_quote_plain hmessage, hopen,
    hmiddle, hclose]
  omega

theorem invalidOutput_fits {outputBudget : ℕ} (hbudget : 256 ≤ outputBudget) :
    Fits invalidOutput outputBudget := by
  have hcode : ∀ u ∈ js "INVALID_OUTPUT", Plain u := plain_of_all (by decide)
  have hmessage : ∀ u ∈ js "tool returned a value that is not JSON serializable", Plain u :=
    plain_of_all (by decide)
  obtain ⟨text, htext, hlength⟩ := length_error hcode hmessage
  have hshort : (js "INVALID_OUTPUT").length +
      (js "tool returned a value that is not JSON serializable").length = 65 := by decide
  exact ⟨text, htext, by omega⟩

theorem outputTooLarge_fits {outputBudget : ℕ} (hlow : 256 ≤ outputBudget)
    (hhigh : outputBudget ≤ 1500) : Fits (outputTooLarge outputBudget) outputBudget := by
  have hcode : ∀ u ∈ js "OUTPUT_TOO_LARGE", Plain u := plain_of_all (by decide)
  have hbefore : ∀ u ∈ js "tool output exceeded ", Plain u := plain_of_all (by decide)
  have hafter : ∀ u ∈ js " characters; narrow the query or lower its limit", Plain u :=
    plain_of_all (by decide)
  have hmessage : ∀ u ∈ js "tool output exceeded " ++ ofNat outputBudget ++
      js " characters; narrow the query or lower its limit", Plain u := by
    intro u hu
    rcases List.mem_append.mp hu with hu | hu
    · rcases List.mem_append.mp hu with hu | hu
      · exact hbefore u hu
      · exact ofNat_plain outputBudget u hu
    · exact hafter u hu
  obtain ⟨text, htext, hlength⟩ := length_error hcode hmessage
  have hdigits : (ofNat outputBudget).length ≤ 4 := length_ofNat_le (by decide) (by omega)
  have hshort : (js "OUTPUT_TOO_LARGE").length + (js "tool output exceeded ").length +
      (js " characters; narrow the query or lower its limit").length = 85 := by decide
  refine ⟨text, htext, ?_⟩
  simp only [List.length_append] at hlength
  omega

theorem withinBudget_fits (limits : ExecutionLimits) (response : ToolResponse) :
    Fits (withinBudget response limits.outputBudget) limits.outputBudget := by
  unfold withinBudget
  split
  case h_1 => exact invalidOutput_fits limits.budget.1
  case h_2 serialized hserialized =>
    split
    case isTrue hfits => exact ⟨serialized, hserialized, hfits⟩
    case isFalse => exact outputTooLarge_fits limits.budget.1 limits.budget.2

theorem minimalSummary_fits {outputBudget : ℕ} (hbudget : 256 ≤ outputBudget) :
    Fits (.ok (.summary minimalSummary)) outputBudget := by
  refine ⟨_, rfl, ?_⟩
  have hlength : (js "\x7b\"ok\":true,\"data\":" ++ summaryText minimalSummary ++
      js "\x7d").length ≤ 256 := by decide
  exact hlength.trans hbudget

theorem committedSuccess_fits (limits : ExecutionLimits) (toolName : String)
    (result : ToolPayload) :
    Fits (committedSuccess toolName result limits.outputBudget) limits.outputBudget := by
  unfold committedSuccess
  dsimp only
  split
  · exact withinBudget_fits limits _
  · exact minimalSummary_fits limits.budget.1

theorem accepted_fits (limits : ExecutionLimits) (tool : Tool) (result : ToolPayload) :
    Fits (accepted tool limits.outputBudget result) limits.outputBudget := by
  unfold accepted
  dsimp only
  split
  · exact committedSuccess_fits limits tool.toolName result
  · exact withinBudget_fits limits _

/-! ### Success and failure -/

theorem committedSuccess_isOk (toolName : String) (result : ToolPayload) (outputBudget : ℕ) :
    (committedSuccess toolName result outputBudget).isOk = true := by
  unfold committedSuccess
  dsimp only
  split
  · assumption
  · rfl

theorem accepted_isOk {tool : Tool} (h : tool.completion = .commitAware) (outputBudget : ℕ)
    (result : ToolPayload) : (accepted tool outputBudget result).isOk = true := by
  unfold accepted
  dsimp only
  split
  case isTrue => exact committedSuccess_isOk tool.toolName result outputBudget
  case isFalse hnot => simpa [h] using hnot

theorem caught_not_ok (outputBudget : ℕ) (error : Thrown) :
    (caught outputBudget error).isOk = false := by
  have herror : (safeError error).isOk = false := by
    unfold safeError
    split <;> rfl
  unfold caught withinBudget
  split
  · rfl
  · split
    · exact herror
    · rfl

/-! ### One call -/

/-- What holds of a call wherever it stands. Once it has returned, `aborted` is whether the
signal had aborted when its result was taken. -/
structure Answered (limits : ExecutionLimits) (c : ToolCall) : Prop where
  waiting : c.phase = .waiting → c.adapter = none
  settled : ∀ outcome, c.phase = .settled outcome → c.tool.completion = .commitAware →
    c.adapter = some outcome
  fits : ∀ response, c.phase = .returned response → Fits response limits.outputBudget
  committed : ∀ response, c.phase = .returned response → c.tool.completion = .commitAware →
    (∃ result, c.adapter = some (.ok result)) → response.isOk = true
  abortable : ∀ response, c.phase = .returned response → c.tool.completion = .abortable →
    response.isOk = true → c.aborted = none

/-- The events of a call: that it started, and that it finished once it has. -/
def Reported (activity : List ActivityEvent) (c : ToolCall) : Prop :=
  ∃ finishedAt, activity.filter (fun event => event.id = c.id) =
    .started c.id c.tool.toolName c.tool.title c.startedAt ::
      match c.phase with
      | .returned response => [c.finished response finishedAt]
      | _ => []

structure Moved (c c' : ToolCall) : Prop where
  id : c'.id = c.id
  tool : c'.tool = c.tool
  startedAt : c'.startedAt = c.startedAt
  recordedInput : c'.recordedInput = c.recordedInput
  returned : ∀ response, c.phase = .returned response → c' = c
  returned' : ∀ response, c'.phase = .returned response → c' = c

variable {limits : ExecutionLimits} {c c' : ToolCall} {activity : List ActivityEvent}

theorem Moved.reported (h : Moved c c') (hc : Reported activity c) : Reported activity c' := by
  obtain ⟨finishedAt, hreported⟩ := hc
  refine ⟨finishedAt, ?_⟩
  rw [h.id, h.tool, h.startedAt, hreported]
  congr 1
  cases hphase : c'.phase with
  | returned response =>
    have hsame := h.returned' response hphase
    subst hsame
    rw [hphase]
  | waiting | settled =>
    cases hold : c.phase with
    | returned response => simp [h.returned response hold, hold] at hphase
    | waiting | settled => rfl

theorem abort_moved (c : ToolCall) (reason : AbortReason) : Moved c (c.abort reason) := by
  unfold ToolCall.abort
  split
  · exact ⟨rfl, rfl, rfl, rfl, fun _ _ => rfl, fun _ _ => rfl⟩
  · exact ⟨rfl, rfl, rfl, rfl, fun _ _ => rfl, fun _ _ => rfl⟩
  case h_3 hwaiting _ =>
    split <;> constructor <;> simp [hwaiting]
  case h_4 hsettled _ => constructor <;> simp [hsettled]

theorem settle_moved (c : ToolCall) (outcome : Except Thrown ToolPayload) :
    Moved c (c.settle outcome) := by
  unfold ToolCall.settle
  split
  case h_1 hwaiting _ => constructor <;> simp [hwaiting]
  case h_2 hsettled _ => constructor <;> simp [hsettled]
  case h_3 => exact ⟨rfl, rfl, rfl, rfl, fun _ _ => rfl, fun _ _ => rfl⟩

theorem Answered.abort (h : Answered limits c) (reason : AbortReason) :
    Answered limits (c.abort reason) := by
  unfold ToolCall.abort
  split
  · exact h
  · exact h
  case h_3 hwaiting _ =>
    split
    case h_1 habortable => constructor <;> simp [habortable]
    case h_2 hcommit =>
      constructor
      case waiting => exact fun _ => h.waiting hwaiting
      all_goals simp [hwaiting]
  case h_4 outcome hsettled _ =>
    constructor
    case settled => exact h.settled
    all_goals simp [hsettled]

theorem Answered.settle (h : Answered limits c) (outcome : Except Thrown ToolPayload) :
    Answered limits (c.settle outcome) := by
  unfold ToolCall.settle
  split
  case h_1 => constructor <;> simp
  case h_2 old hsettled hnone =>
    constructor
    case settled =>
      intro other hother hcommit
      have hsome := h.settled old hsettled hcommit
      simp [hnone] at hsome
    all_goals simp [hsettled]
  case h_3 => exact h

theorem Answered.finish (h : Answered limits c) {outcome : Except Thrown ToolPayload}
    (hsettled : c.phase = .settled outcome) :
    Answered limits (c.finish (c.answer limits.outputBudget outcome)) := by
  have hfits : Fits (c.answer limits.outputBudget outcome) limits.outputBudget := by
    unfold ToolCall.answer
    split
    · exact withinBudget_fits limits _
    · split
      · exact withinBudget_fits limits _
      · exact accepted_fits limits c.tool _
  constructor
  case waiting => simp [ToolCall.finish]
  case settled => simp [ToolCall.finish]
  case fits =>
    intro response hresponse
    obtain rfl : c.answer limits.outputBudget outcome = response := by
      simpa [ToolCall.finish] using hresponse
    exact hfits
  case committed =>
    rintro response hresponse hcommit ⟨result, hresult⟩
    obtain rfl : c.answer limits.outputBudget outcome = response := by
      simpa [ToolCall.finish] using hresponse
    have hadapter : c.adapter = some outcome := h.settled outcome hsettled hcommit
    obtain rfl : outcome = .ok result := by
      have hsame : c.adapter = some (.ok result) := hresult
      simpa [hadapter] using hsame
    have hanswer : c.answer limits.outputBudget (.ok result) =
        accepted c.tool limits.outputBudget result := by
      have hkind : c.tool.completion = .commitAware := hcommit
      simp [ToolCall.answer, hkind]
    rw [hanswer]
    exact accepted_isOk hcommit _ _
  case abortable =>
    intro response hresponse habortable hok
    obtain rfl : c.answer limits.outputBudget outcome = response := by
      simpa [ToolCall.finish] using hresponse
    have hkind : c.tool.completion = .abortable := habortable
    cases outcome with
    | error error => simp [ToolCall.answer, caught_not_ok] at hok
    | ok result =>
      cases haborted : c.aborted with
      | none => exact haborted
      | some reason => simp [ToolCall.answer, hkind, haborted, caught_not_ok] at hok

/-! ### Sessions -/

/-- Calls are numbered as they begin, and every event is of one of them. -/
structure Kept (limits : ExecutionLimits) (s : ToolSession) : Prop where
  ids : ∀ k c, s.calls[k]? = some c → c.id = k + 1
  known : ∀ event ∈ s.activity, event.id ≤ s.calls.length
  answered : ∀ c ∈ s.calls, Answered limits c
  reported : ∀ c ∈ s.calls, Reported s.activity c

theorem Kept.modify {s : ToolSession} (h : Kept limits s) {f : ToolCall → ToolCall}
    (hmoved : ∀ c, Moved c (f c)) (hanswered : ∀ c, Answered limits c → Answered limits (f c))
    (call : ℕ) : Kept limits (s.modify call f) := by
  have hmem : ∀ c ∈ (s.modify call f).calls, ∃ old ∈ s.calls, c = old ∨ c = f old := by
    intro c hc
    obtain ⟨k, hk⟩ := List.mem_iff_getElem?.mp hc
    rw [ToolSession.modify, List.getElem?_modify] at hk
    obtain ⟨old, hold, hsame⟩ := Option.map_eq_some_iff.mp hk
    refine ⟨old, List.mem_of_getElem? hold, ?_⟩
    split at hsame
    · exact .inr hsame.symm
    · exact .inl hsame.symm
  constructor
  case ids =>
    intro k c hc
    rw [ToolSession.modify, List.getElem?_modify] at hc
    obtain ⟨old, hold, hsame⟩ := Option.map_eq_some_iff.mp hc
    rw [← hsame]
    split
    · exact (hmoved old).id.trans (h.ids k old hold)
    · exact h.ids k old hold
  case known => simpa [ToolSession.modify] using h.known
  case answered =>
    intro c hc
    obtain ⟨old, hold, rfl | rfl⟩ := hmem c hc
    · exact h.answered c hold
    · exact hanswered old (h.answered old hold)
  case reported =>
    intro c hc
    obtain ⟨old, hold, rfl | rfl⟩ := hmem c hc
    · exact h.reported c hold
    · exact (hmoved old).reported (h.reported old hold)

theorem Reported.append (h : Reported activity c) {more : List ActivityEvent}
    (hmore : ∀ event ∈ more, event.id ≠ c.id) : Reported (activity ++ more) c := by
  obtain ⟨finishedAt, hreported⟩ := h
  have hnone : more.filter (fun event => event.id = c.id) = [] :=
    List.filter_eq_nil_iff.mpr fun event hevent => by simpa using hmore event hevent
  exact ⟨finishedAt, by rw [List.filter_append, hnone, List.append_nil, hreported]⟩

theorem Kept.id_le {s : ToolSession} (h : Kept limits s) (hc : c ∈ s.calls) :
    c.id ≤ s.calls.length := by
  obtain ⟨k, hk⟩ := List.mem_iff_getElem?.mp hc
  have hlt := (List.getElem?_eq_some_iff.mp hk).1
  have hid := h.ids k c hk
  omega

theorem Kept.add {s : ToolSession} (h : Kept limits s) {more : List ActivityEvent}
    (hid : c.id = s.calls.length + 1) (hmore : ∀ event ∈ more, event.id = c.id)
    (hanswered : Answered limits c) (hreported : Reported more c) :
    Kept limits { calls := s.calls ++ [c], activity := s.activity ++ more } := by
  constructor
  case ids =>
    intro k other hother
    rcases Nat.lt_trichotomy k s.calls.length with hlt | heq | hgt
    · exact h.ids k other (by simpa [List.getElem?_append_left hlt] using hother)
    · subst heq
      obtain rfl : c = other := by simpa using hother
      exact hid
    · have hnone : (s.calls ++ [c])[k]? = none := List.getElem?_eq_none (by simp; omega)
      simp [hnone] at hother
  case known =>
    intro event hevent
    rcases List.mem_append.mp hevent with hold | hnew
    · have hle := h.known event hold
      simp
      omega
    · simp [hmore event hnew, hid]
  case answered =>
    intro other hother
    rcases List.mem_append.mp hother with hold | hnew
    · exact h.answered other hold
    · exact List.mem_singleton.mp hnew ▸ hanswered
  case reported =>
    intro other hother
    rcases List.mem_append.mp hother with hold | hnew
    · refine (h.reported other hold).append fun event hevent => ?_
      have hle := h.id_le hold
      rw [hmore event hevent, hid]
      omega
    · obtain rfl := List.mem_singleton.mp hnew
      obtain ⟨finishedAt, hmine⟩ := hreported
      have hnone : s.activity.filter (fun event => event.id = other.id) = [] := by
        refine List.filter_eq_nil_iff.mpr fun event hevent => ?_
        have hle := h.known event hevent
        simp
        omega
      exact ⟨finishedAt, by rw [List.filter_append, hnone, List.nil_append, hmine]⟩

/-- A call that ends before its first wait has failed, and its adapter has promised nothing. -/
theorem opening_answered (limits : ExecutionLimits) (recordValidatedInput : Bool) (id : ℕ)
    (invocation : Invocation) :
    match ToolSession.opening limits recordValidatedInput id invocation with
    | (c, none) => c.id = id ∧ c.tool = invocation.tool ∧ c.startedAt = invocation.now ∧
        c.phase = .waiting ∧ c.adapter = none
    | (c, some response) => c.id = id ∧ c.tool = invocation.tool ∧ c.startedAt = invocation.now ∧
        c.adapter = none ∧ Fits response limits.outputBudget ∧ response.isOk = false := by
  have hcaught : ∀ error, Fits (caught limits.outputBudget error) limits.outputBudget ∧
      (caught limits.outputBudget error).isOk = false :=
    fun error => ⟨withinBudget_fits limits _, caught_not_ok _ error⟩
  unfold ToolSession.opening
  dsimp only
  split
  case h_1 c hopening =>
    split at hopening
    · simp at hopening
    · split at hopening
      · simp at hopening
      · split at hopening
        · simp at hopening
        · cases hopening
          exact ⟨rfl, rfl, rfl, rfl, rfl⟩
  case h_2 c response hopening =>
    split at hopening
    · cases hopening
      exact ⟨rfl, rfl, rfl, rfl, hcaught _⟩
    · split at hopening
      · cases hopening
        exact ⟨rfl, rfl, rfl, rfl, hcaught _⟩
      · split at hopening
        · cases hopening
          exact ⟨rfl, rfl, rfl, rfl, hcaught _⟩
        · simp at hopening

theorem Kept.begin {s : ToolSession} (h : Kept limits s) (recordValidatedInput : Bool)
    (invocation : Invocation) :
    Kept limits (ToolSession.begin limits recordValidatedInput s invocation) := by
  have hopening := opening_answered limits recordValidatedInput (s.calls.length + 1) invocation
  unfold ToolSession.begin
  dsimp only
  split
  case h_1 c hc =>
    rw [hc] at hopening
    obtain ⟨hid, htool, hstarted, hphase, hadapter⟩ := hopening
    refine h.add hid (by simp [ActivityEvent.id, hid]) ?_ ⟨0, ?_⟩
    · constructor <;> simp [hphase, hadapter]
    · simp [ActivityEvent.id, hphase, hid, htool, hstarted]
  case h_2 c response hc =>
    rw [hc] at hopening
    obtain ⟨hid, htool, hstarted, hadapter, hfits, hfailed⟩ := hopening
    refine h.add hid ?_ ?_ ⟨invocation.now, ?_⟩
    · simp [ActivityEvent.id, ToolCall.finished, ToolCall.finish, hid]
    · constructor
      case fits =>
        intro other hother
        obtain rfl : response = other := by simpa [ToolCall.finish] using hother
        exact hfits
      case abortable =>
        intro other hother _ hok
        obtain rfl : response = other := by simpa [ToolCall.finish] using hother
        simp [hfailed] at hok
      all_goals simp [ToolCall.finish, hadapter]
    · simp [ActivityEvent.id, ToolCall.finished, ToolCall.finish, hid, htool, hstarted]

theorem Kept.resume {s : ToolSession} (h : Kept limits s) (call now : ℕ) :
    Kept limits (ToolSession.resume limits s call now) := by
  unfold ToolSession.resume
  split
  case h_1 => exact h
  case h_2 c hc =>
    split
    case h_2 => exact h
    case h_1 outcome hphase =>
      have hmem : c ∈ s.calls := List.mem_of_getElem? hc
      have hcall : call < s.calls.length := (List.getElem?_eq_some_iff.mp hc).1
      have hset : ∀ k other, (s.calls.set call
          (c.finish (c.answer limits.outputBudget outcome)))[k]? = some other →
          k = call ∧ other = c.finish (c.answer limits.outputBudget outcome) ∨
            k ≠ call ∧ s.calls[k]? = some other := by
        intro k other hother
        rw [List.getElem?_set] at hother
        split at hother
        case isTrue hk => exact .inl ⟨hk.symm, by simpa [hcall] using hother.symm⟩
        case isFalse hk => exact .inr ⟨fun h => hk h.symm, hother⟩
      constructor
      case ids =>
        intro k other hother
        rcases hset k other hother with ⟨rfl, rfl⟩ | ⟨-, hold⟩
        · exact h.ids k c hc
        · exact h.ids k other hold
      case known =>
        intro event hevent
        rw [List.length_set]
        rcases List.mem_append.mp hevent with hold | hnew
        · exact h.known event hold
        · rw [List.mem_singleton.mp hnew]
          exact h.id_le hmem
      case answered =>
        intro other hother
        obtain ⟨k, hk⟩ := List.mem_iff_getElem?.mp hother
        rcases hset k other hk with ⟨-, rfl⟩ | ⟨-, hold⟩
        · exact (h.answered c hmem).finish hphase
        · exact h.answered other (List.mem_of_getElem? hold)
      case reported =>
        intro other hother
        obtain ⟨k, hk⟩ := List.mem_iff_getElem?.mp hother
        rcases hset k other hk with ⟨-, rfl⟩ | ⟨hne, hold⟩
        · obtain ⟨finishedAt, hreported⟩ := h.reported c hmem
          simp only [hphase] at hreported
          have hfinished : [c.finished (c.answer limits.outputBudget outcome) now].filter
              (fun event => event.id = c.id) =
              [c.finished (c.answer limits.outputBudget outcome) now] := by
            simp [ToolCall.finished, ActivityEvent.id]
          exact ⟨now, (List.filter_append ..).trans (congrArg₂ (· ++ ·) hreported hfinished)⟩
        · refine (h.reported other (List.mem_of_getElem? hold)).append fun event hevent => ?_
          rw [List.mem_singleton.mp hevent]
          have hid := h.ids k other hold
          have hid' := h.ids call c hc
          simp only [ToolCall.finished, ActivityEvent.id]
          omega

theorem Kept.step {s : ToolSession} (h : Kept limits s) (recordValidatedInput : Bool)
    (event : ToolEvent) : Kept limits (ToolSession.step limits recordValidatedInput s event) := by
  cases event with
  | begin invocation => exact h.begin recordValidatedInput invocation
  | parentAborted call reason =>
    exact h.modify (fun c => abort_moved c _) (fun c hc => hc.abort _) call
  | timedOut call => exact h.modify (fun c => abort_moved c _) (fun c hc => hc.abort _) call
  | adapterSettled call outcome =>
    exact h.modify (fun c => settle_moved c outcome) (fun c hc => hc.settle outcome) call
  | resumed call now => exact h.resume call now

/-! ### What reaches a call -/

/-- The adapter of the call is run and returns a promise. -/
def Invocation.Starts (invocation : Invocation) : Prop :=
  invocation.parent = none ∧ invocation.validated = .ok () ∧ invocation.started = .ok ()

def settledOf (k : ℕ) : ToolEvent → Option (Except Thrown ToolPayload)
  | .adapterSettled call outcome => if call = k then some outcome else none
  | _ => none

def Aborts (k : ℕ) : ToolEvent → Prop
  | .parentAborted call _ | .timedOut call => call = k
  | _ => False

/-- The event ends the wait of the call, unless the signal of the call had aborted before it waits. -/
def Wakes (k : ℕ) (invocation : Invocation) (event : ToolEvent) : Prop :=
  (settledOf k event).isSome ∨
    invocation.tool.completion = .abortable ∧ invocation.meanwhile = none ∧ Aborts k event

/-- The call was resumed at some point, and its signal had not aborted by then. -/
def TakenClear (k : ℕ) (invocation : Invocation) (after : List ToolEvent) : Prop :=
  ∃ taken now rest, after = taken ++ .resumed k now :: rest ∧
    invocation.meanwhile = none ∧ ∀ event ∈ taken, ¬ Aborts k event

/-- A call and the events after its start. -/
structure Follows (k : ℕ) (invocation : Invocation) (after : List ToolEvent) (c : ToolCall) :
    Prop where
  tool : c.tool = invocation.tool
  unstarted : ¬ invocation.Starts → ∃ response, c.phase = .returned response ∧ response.isOk = false
  waiting : c.phase = .waiting → c.adapter = none ∧ (∀ event ∈ after, ¬ Wakes k invocation event) ∧
    (c.tool.completion = .abortable → invocation.meanwhile = none → c.aborted = none)
  settled : ∀ outcome, c.phase = .settled outcome →
    ∀ event now, Wakes k invocation event → ¬ [event, .resumed k now].Sublist after
  unaborted : (∀ response, c.phase ≠ .returned response) → c.aborted = none →
    invocation.meanwhile = none ∧ ∀ event ∈ after, ¬ Aborts k event
  adapter : invocation.Starts → c.tool.completion = .commitAware →
    c.adapter = (after.filterMap (settledOf k)).head?
  resolved : invocation.Starts → c.tool.completion = .commitAware → c.phase ≠ .waiting →
    c.adapter.isSome
  taken : ∀ response, c.phase = .returned response → c.tool.completion = .abortable →
    response.isOk = true → TakenClear k invocation after

theorem sublist_concat {event resumed last : ToolEvent} {events : List ToolEvent}
    (h : [event, resumed].Sublist (events ++ [last])) :
    [event, resumed].Sublist events ∨ resumed = last ∧ event ∈ events := by
  obtain ⟨first, second, hsplit, hfirst, hsecond⟩ := List.sublist_append_iff.mp h
  rcases List.eq_nil_or_concat second with rfl | ⟨init, x, rfl⟩
  · rw [List.append_nil] at hsplit
    exact .inl (hsplit ▸ hfirst)
  · obtain ⟨rfl, hx⟩ : init = [] ∧ x = last := by
      have hlength := hsecond.length_le
      have hnil : init = [] := List.eq_nil_of_length_eq_zero (by simpa using hlength)
      subst hnil
      simpa using hsecond
    have hpair : [event] ++ [resumed] = first ++ [x] := by simpa using hsplit
    obtain ⟨rfl, hresumed⟩ := List.append_inj' hpair rfl
    exact .inr ⟨(List.singleton_inj.mp hresumed).trans hx, List.singleton_sublist.mp hfirst⟩

variable {k : ℕ} {invocation : Invocation} {after : List ToolEvent} {event : ToolEvent}

/-- Members of a longer list, its last one apart. -/
theorem forall_mem_concat {P : ToolEvent → Prop} (h : ∀ event ∈ after, P event) (hlast : P event) :
    ∀ other ∈ after ++ [event], P other := by
  intro other hother
  rcases List.mem_append.mp hother with hold | hnew
  · exact h other hold
  · exact List.mem_singleton.mp hnew ▸ hlast

theorem Follows.taken_concat (h : Follows k invocation after c) (event : ToolEvent)
    (response : ToolResponse) (hphase : c.phase = .returned response)
    (habortable : c.tool.completion = .abortable) (hok : response.isOk = true) :
    TakenClear k invocation (after ++ [event]) := by
  obtain ⟨taken, now, rest, rfl, hclear⟩ := h.taken response hphase habortable hok
  exact ⟨taken, now, rest ++ [event], by simp, hclear⟩

theorem Follows.unaborted_concat (h : Follows k invocation after c) (haborts : ¬ Aborts k event)
    (hphase : ∀ response, c.phase ≠ .returned response) (hnone : c.aborted = none) :
    invocation.meanwhile = none ∧ ∀ other ∈ after ++ [event], ¬ Aborts k other := by
  obtain ⟨hmeanwhile, hclear⟩ := h.unaborted hphase hnone
  exact ⟨hmeanwhile, forall_mem_concat hclear haborts⟩

theorem sublist_of_concat (hresumed : ∀ now, event ≠ .resumed k now) {woken : ToolEvent} {now : ℕ}
    (hsub : [woken, .resumed k now].Sublist (after ++ [event])) :
    [woken, .resumed k now].Sublist after :=
  (sublist_concat hsub).resolve_right fun hlast => hresumed now hlast.1.symm

theorem Follows.settled_concat (h : Follows k invocation after c)
    (hresumed : ∀ now, event ≠ .resumed k now) (outcome : Except Thrown ToolPayload)
    (hphase : c.phase = .settled outcome) (woken : ToolEvent) (now : ℕ)
    (hwoken : Wakes k invocation woken) : ¬ [woken, .resumed k now].Sublist (after ++ [event]) :=
  fun hsub => h.settled outcome hphase woken now hwoken (sublist_of_concat hresumed hsub)

/-- An event that is not of the call. -/
theorem Follows.other (h : Follows k invocation after c) (hsettled : settledOf k event = none)
    (haborts : ¬ Aborts k event) (hresumed : ∀ now, event ≠ .resumed k now) :
    Follows k invocation (after ++ [event]) c := by
  have hwakes : ¬ Wakes k invocation event := by
    rintro (hsome | ⟨-, -, habort⟩)
    · simp [hsettled] at hsome
    · exact haborts habort
  constructor
  case tool => exact h.tool
  case unstarted => exact h.unstarted
  case waiting =>
    intro hphase
    obtain ⟨hnone, hpending, hclear⟩ := h.waiting hphase
    exact ⟨hnone, forall_mem_concat hpending hwakes, hclear⟩
  case settled => exact h.settled_concat hresumed
  case unaborted => exact h.unaborted_concat haborts
  case adapter =>
    intro hstarts hcommit
    simp [h.adapter hstarts hcommit, hsettled]
  case resolved => exact h.resolved
  case taken => exact h.taken_concat event

theorem Follows.abort (h : Follows k invocation after c)
    (hsettled : settledOf k event = none) (hresumed : ∀ now, event ≠ .resumed k now)
    (reason : AbortReason) : Follows k invocation (after ++ [event]) (c.abort reason) := by
  have hadapter : (after ++ [event]).filterMap (settledOf k) = after.filterMap (settledOf k) := by
    simp [hsettled]
  unfold ToolCall.abort
  split
  case h_1 response hphase =>
    constructor
    case tool => exact h.tool
    case unstarted => exact h.unstarted
    case waiting => simp [hphase]
    case settled => simp [hphase]
    case unaborted => exact fun hother => absurd hphase (hother response)
    case adapter => exact hadapter ▸ h.adapter
    case resolved => exact h.resolved
    case taken => exact h.taken_concat event
  case h_2 haborted hnot =>
    constructor
    case tool => exact h.tool
    case unstarted => exact h.unstarted
    case waiting =>
      intro hphase
      obtain ⟨hnone, hpending, hclear⟩ := h.waiting hphase
      refine ⟨hnone, forall_mem_concat hpending ?_, hclear⟩
      rintro (hsome | ⟨habortable, hmeanwhile, -⟩)
      · simp [hsettled] at hsome
      · have hunaborted := hclear (h.tool ▸ habortable) hmeanwhile
        simp [haborted] at hunaborted
    case settled => exact h.settled_concat hresumed
    case unaborted => simp [haborted]
    case adapter => exact hadapter ▸ h.adapter
    case resolved => exact h.resolved
    case taken => exact h.taken_concat event
  case h_3 hwaiting hnone =>
    obtain ⟨hadapterNone, hpending, -⟩ := h.waiting hwaiting
    have hunstarted : ¬ ¬ invocation.Starts := by
      intro hstarts
      obtain ⟨response, hphase, -⟩ := h.unstarted hstarts
      simp [hwaiting] at hphase
    split
    case h_1 habortable =>
      constructor
      case tool => exact h.tool
      case unstarted => exact fun hstarts => absurd hstarts hunstarted
      case settled =>
        intro outcome _ woken now hwoken hlast
        exact hpending woken ((sublist_of_concat hresumed hlast).mem List.mem_cons_self) hwoken
      case adapter => exact hadapter ▸ h.adapter
      all_goals simp [habortable]
    case h_2 hcommit =>
      constructor
      case tool => exact h.tool
      case unstarted => exact fun hstarts => absurd hstarts hunstarted
      case waiting =>
        refine fun _ => ⟨hadapterNone, forall_mem_concat hpending ?_, by simp [hcommit]⟩
        rintro (hsome | ⟨habortable, -⟩)
        · simp [hsettled] at hsome
        · simp [← h.tool, hcommit] at habortable
      case adapter => exact hadapter ▸ h.adapter
      case resolved => exact h.resolved
      all_goals simp [hwaiting]
  case h_4 outcome hphase hnone =>
    constructor
    case tool => exact h.tool
    case unstarted => exact h.unstarted
    case settled => exact h.settled_concat hresumed
    case adapter => exact hadapter ▸ h.adapter
    case resolved => exact h.resolved
    all_goals simp [hphase]

theorem Follows.settle (h : Follows k invocation after c) (outcome : Except Thrown ToolPayload) :
    Follows k invocation (after ++ [.adapterSettled k outcome]) (c.settle outcome) := by
  have hresumed : ∀ now, ToolEvent.adapterSettled k outcome ≠ .resumed k now := by simp
  have haborts : ¬ Aborts k (.adapterSettled k outcome) := fun haborts => haborts
  have hadapter : ∀ {old}, (after.filterMap (settledOf k)).head? = old →
      ((after ++ [ToolEvent.adapterSettled k outcome]).filterMap (settledOf k)).head? =
        some (old.getD outcome) := by
    rintro _ rfl
    rw [List.filterMap_append, List.head?_append]
    cases (after.filterMap (settledOf k)).head? <;> simp [settledOf]
  unfold ToolCall.settle
  split
  case h_1 hwaiting hnone =>
    obtain ⟨-, hpending, -⟩ := h.waiting hwaiting
    constructor
    case tool => exact h.tool
    case unstarted =>
      intro hstarts
      obtain ⟨response, hphase, -⟩ := h.unstarted hstarts
      simp [hwaiting] at hphase
    case settled =>
      intro _ _ woken now hwoken hlast
      exact hpending woken ((sublist_of_concat hresumed hlast).mem List.mem_cons_self) hwoken
    case unaborted => exact fun _ hnone => h.unaborted_concat haborts (by simp [hwaiting]) hnone
    case adapter =>
      intro hstarts hcommit
      rw [hadapter ((h.adapter hstarts hcommit).symm.trans hnone)]
      rfl
    all_goals simp
  case h_2 old hphase hnone =>
    constructor
    case tool => exact h.tool
    case unstarted => exact h.unstarted
    case settled => exact h.settled_concat hresumed
    case unaborted => exact h.unaborted_concat haborts
    case adapter =>
      intro hstarts hcommit
      rw [hadapter ((h.adapter hstarts hcommit).symm.trans hnone)]
      rfl
    all_goals simp [hphase]
  case h_3 hnot hnot' =>
    have hadapterOf : invocation.Starts → c.tool.completion = .commitAware →
        c.phase ≠ .waiting := by
      intro _ _ hwaiting
      exact hnot hwaiting (h.waiting hwaiting).1
    constructor
    case tool => exact h.tool
    case unstarted => exact h.unstarted
    case waiting => exact fun hwaiting => absurd (h.waiting hwaiting).1 (hnot hwaiting)
    case settled => exact h.settled_concat hresumed
    case unaborted => exact h.unaborted_concat haborts
    case adapter =>
      intro hstarts hcommit
      obtain ⟨old, hold⟩ := Option.isSome_iff_exists.mp
        (h.resolved hstarts hcommit (hadapterOf hstarts hcommit))
      rw [hold, hadapter ((h.adapter hstarts hcommit).symm.trans hold)]
      rfl
    case resolved => exact h.resolved
    case taken => exact h.taken_concat _

theorem Follows.finish (h : Follows k invocation after c) {outcome : Except Thrown ToolPayload}
    (hphase : c.phase = .settled outcome) (now : ℕ) :
    Follows k invocation (after ++ [.resumed k now])
      (c.finish (c.answer limits.outputBudget outcome)) := by
  have hnot : ∀ response, c.phase ≠ .returned response := by simp [hphase]
  constructor
  case tool => exact h.tool
  case unstarted =>
    intro hstarts
    obtain ⟨response, hreturned, -⟩ := h.unstarted hstarts
    exact absurd hreturned (hnot response)
  case adapter =>
    intro hstarts hcommit
    rw [List.filterMap_append]
    simpa [settledOf, ToolCall.finish] using h.adapter hstarts hcommit
  case resolved =>
    intro hstarts hcommit _
    exact h.resolved hstarts hcommit (by simp [hphase])
  case taken =>
    intro response hresponse habortable hok
    obtain rfl : c.answer limits.outputBudget outcome = response := by
      simpa [ToolCall.finish] using hresponse
    have hkind : c.tool.completion = .abortable := habortable
    refine ⟨after, now, [], rfl, h.unaborted hnot ?_⟩
    cases outcome with
    | error error => simp [ToolCall.answer, caught_not_ok] at hok
    | ok result =>
      cases haborted : c.aborted with
      | none => rfl
      | some reason => simp [ToolCall.answer, hkind, haborted, caught_not_ok] at hok
  all_goals simp [ToolCall.finish]

/-- A call that has nothing to resume with stays as it is. -/
theorem Follows.resumed (h : Follows k invocation after c)
    (hphase : ∀ outcome, c.phase ≠ .settled outcome) (now : ℕ) :
    Follows k invocation (after ++ [.resumed k now]) c := by
  constructor
  case tool => exact h.tool
  case unstarted => exact h.unstarted
  case waiting =>
    intro hwaiting
    obtain ⟨hnone, hpending, hclear⟩ := h.waiting hwaiting
    exact ⟨hnone, forall_mem_concat hpending (by simp [Wakes, settledOf, Aborts]), hclear⟩
  case settled => exact fun outcome hsettled => absurd hsettled (hphase outcome)
  case unaborted => exact h.unaborted_concat fun haborts => haborts
  case adapter =>
    intro hstarts hcommit
    rw [List.filterMap_append]
    simpa [settledOf] using h.adapter hstarts hcommit
  case resolved => exact h.resolved
  case taken => exact h.taken_concat _

/-- The calls that are begun, in order. -/
def begun (schedule : List ToolEvent) : List Invocation :=
  schedule.filterMap fun
    | .begin invocation => some invocation
    | _ => none

theorem Kept.run (limits : ExecutionLimits) (record : Bool) (schedule : List ToolEvent) :
    Kept limits (Machine.run (ToolSession.step limits record) .start schedule) :=
  Machine.run_invariant (fun _ event h => h.step record event)
    ⟨by simp [ToolSession.start], by simp [ToolSession.start], by simp [ToolSession.start],
      by simp [ToolSession.start]⟩ schedule

end Tellegen
