import Mathlib.Algebra.Group.Nat.Defs
import Mathlib.Data.Finset.Card
import Tellegen.Lib.SlidingWindow

/-!
The rate limit of the expensive endpoints. A request reads the clock, waits for the lock, and is counted in the
bucket of its client and endpoint. Times and durations are in nanoseconds.
-/

namespace Tellegen.Server

structure RateLimit where
  events : ℕ
  window : ℕ

structure RateLimitConfig where
  solve : RateLimit
  sensitivity : RateLimit

inductive ExpensiveEndpoint where
  | solve | sensitivity
  deriving DecidableEq

namespace ExpensiveEndpoint

def name : ExpensiveEndpoint → String
  | .solve => "solve"
  | .sensitivity => "sensitivity"

def limit (config : RateLimitConfig) : ExpensiveEndpoint → RateLimit
  | .solve => config.solve
  | .sensitivity => config.sensitivity

end ExpensiveEndpoint

def defaultRateLimitWindowSecs : ℕ := 10

def defaultSolveRateLimitEvents : ℕ := 5

def defaultSensitivityRateLimitEvents : ℕ := 25

def rateLimitBucketCap : ℕ := 8192

/-- `env` holds the variables that read as numbers. -/
def envRateLimitEvents (env : String → Option ℕ) (name : String) (default : ℕ) : ℕ := (env name).getD default

def rateLimitConfig (env : String → Option ℕ) : RateLimitConfig :=
  let secs := ((env "TELLEGEN_RATE_LIMIT_WINDOW_SECS").filter fun n => decide (0 < n)).getD
    defaultRateLimitWindowSecs
  let window := secs * 10 ^ 9
  { solve :=
      { events := envRateLimitEvents env "TELLEGEN_SOLVE_RATE_LIMIT_EVENTS" defaultSolveRateLimitEvents
        window }
    sensitivity :=
      { events := envRateLimitEvents env "TELLEGEN_SENSITIVITY_RATE_LIMIT_EVENTS"
          defaultSensitivityRateLimitEvents
        window } }

/-- The accepted times of each key, the earliest accepted in front. -/
structure RateBuckets where
  keys : Finset String
  bucket : String → List ℕ

/-- `now.checked_duration_since(seen)` is none for a time that is still to come. -/
def age (now seen : ℕ) : Option ℕ := if seen ≤ now then some (now - seen) else none

def pruneRateBucket (bucket : List ℕ) (now window : ℕ) : List ℕ :=
  bucket.dropWhile fun seen => (age now seen).any fun age => decide (window ≤ age)

namespace RateBuckets

def empty : RateBuckets := ⟨∅, fun _ => []⟩

/-- `*buckets.entry(key).or_default() = bucket` -/
def put (buckets : RateBuckets) (key : String) (bucket : List ℕ) : RateBuckets :=
  ⟨insert key buckets.keys, Function.update buckets.bucket key bucket⟩

/-- Prunes every bucket, and lets those go that are empty. -/
def retain (buckets : RateBuckets) (now window : ℕ) : RateBuckets :=
  { keys := buckets.keys.filter fun key => pruneRateBucket (buckets.bucket key) now window ≠ []
    bucket := fun key => pruneRateBucket (buckets.bucket key) now window }

end RateBuckets

structure Request where
  endpoint : ExpensiveEndpoint
  client : String
  /-- The reading of the clock, before the lock. -/
  now : ℕ
  deriving DecidableEq

def Request.key (request : Request) : String := request.endpoint.name ++ ":" ++ request.client

structure Decision where
  result : Except String Unit
  buckets : RateBuckets
  /-- The other buckets have been pruned too. -/
  cleaned : Bool

/-- What is done under the lock. Without a cap the buckets of other keys are never pruned. -/
def checkExpensiveRateLimit (cap : Option ℕ) (config : RateLimitConfig) (buckets : RateBuckets)
    (request : Request) : Decision :=
  let limit := request.endpoint.limit config
  let bucket := pruneRateBucket (buckets.bucket request.key) request.now limit.window
  if limit.events ≤ bucket.length then
    ⟨.error (request.endpoint.name ++ " rate limit exceeded"), buckets.put request.key bucket, false⟩
  else
    let buckets := buckets.put request.key (bucket ++ [request.now])
    if cap.any fun cap => decide (cap < buckets.keys.card) then
      ⟨.ok (), buckets.retain request.now limit.window, true⟩
    else ⟨.ok (), buckets, false⟩

/-! ### Interleavings -/

structure LogEntry where
  request : Request
  accepted : Bool
  cleaned : Bool
  deriving DecidableEq

structure RateState where
  clock : ℕ
  /-- The requests that have read the clock and not yet had the lock. -/
  waiting : List Request
  buckets : RateBuckets
  /-- The requests in the order in which they had the lock. -/
  log : List LogEntry

def RateState.start : RateState := ⟨0, [], .empty, []⟩

inductive RateLabel where
  /-- A request comes some time after the last. -/
  | arrives (endpoint : ExpensiveEndpoint) (client : String) (elapsed : ℕ)
  /-- One of the waiting requests has the lock. -/
  | locks (i : ℕ)

/-- A limit of zero is none: such a request reads no clock and takes no lock. -/
def rateStep (cap : Option ℕ) (config : RateLimitConfig) (s : RateState) : RateLabel → RateState
  | .arrives endpoint client elapsed =>
    let now := s.clock + elapsed
    if (endpoint.limit config).events = 0 then { s with clock := now }
    else { s with clock := now, waiting := s.waiting ++ [⟨endpoint, client, now⟩] }
  | .locks i =>
    match s.waiting[i]? with
    | none => s
    | some request =>
      let decision := checkExpensiveRateLimit cap config s.buckets request
      { s with
        waiting := s.waiting.eraseIdx i
        buckets := decision.buckets
        log := s.log ++ [⟨request, decision.result.isOk, decision.cleaned⟩] }

def rateRun (cap : Option ℕ) (config : RateLimitConfig) (schedule : List RateLabel) : RateState :=
  Machine.run (rateStep cap config) .start schedule

/-- The accepted readings of a client on an endpoint. -/
def acceptedAt (log : List LogEntry) (endpoint : ExpensiveEndpoint) (client : String) : List ℕ :=
  (log.filter fun entry => entry.accepted && entry.request.endpoint == endpoint
    && entry.request.client == client).map fun entry => entry.request.now

end Tellegen.Server
