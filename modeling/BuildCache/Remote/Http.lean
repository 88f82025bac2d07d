import BuildCache.Remote.Client
import BuildCache.Text.Quoted

/-! # Remote caches over HTTP: requests for objects, and what the answers to them mean -/
namespace BuildCache

namespace Http

inductive Method
  | get
  | put
  deriving DecidableEq

structure Request where
  method : Method
  url : String
  /-- The token of the bearer, if one is shown. -/
  bearer : Option String
  contentType : Option String
  body : Bytes
  deriving DecidableEq

inductive Outcome
  | answered (status : Nat) (body : Bytes)
  | timedOut
  | broken (reason : String)
  deriving DecidableEq

/-- Carries requests to servers; the time is that until the outcome, as for replies. -/
abbrev Transport (σ : Type) := Request → σ → σ × Outcome × Option Nat

/-- Reaches no server. -/
def Transport.refusing (σ : Type) : Transport σ := fun _ s => (s, .broken "connection refused", some 0)

def isSuccess (status : Nat) : Bool := 200 ≤ status && status < 300

def failure (name : String) (timeoutMs : Nat) : Outcome → RemoteError
  | .answered status _ => .status name status
  | .timedOut => .timeout name timeoutMs
  | .broken reason => .transport name reason

/-- An object that is not there is no failure. -/
def fetched (name : String) (timeoutMs : Nat) (o : Outcome) : Except RemoteError (Option Bytes) :=
  match o with
  | .answered status body =>
    if status = 404 then .ok none
    else if isSuccess status then .ok (some body)
    else .error (failure name timeoutMs o)
  | o => .error (failure name timeoutMs o)

def published (name : String) (timeoutMs : Nat) (o : Outcome) : Except RemoteError Unit :=
  match o with
  | .answered status _ => if isSuccess status then .ok () else .error (failure name timeoutMs o)
  | o => .error (failure name timeoutMs o)

def fetchRequest (t : RemoteTarget) (k : CacheKey) : Request :=
  ⟨.get, t.address.objectUrl k, t.credential.map (·.secret), none, []⟩

def publishRequest (t : RemoteTarget) (k : CacheKey) (data : Bytes) : Request :=
  ⟨.put, t.address.objectUrl k, t.credential.map (·.secret), some "application/octet-stream", data⟩

end Http

variable {σ : Type}

def RemoteTarget.backend (t : RemoteTarget) (timeoutMs : Nat) (send : Http.Transport σ) : Backend σ :=
  if t.address = .disabled then .disabled σ
  else {
    name := t.address.name
    fetch := fun k s =>
      let (s, o, latency) := send (Http.fetchRequest t k) s
      (s, ⟨Http.fetched t.address.name timeoutMs o, latency⟩)
    publish := fun k data s =>
      let (s, o, latency) := send (Http.publishRequest t k data) s
      (s, ⟨Http.published t.address.name timeoutMs o, latency⟩) }

namespace Client

/-- The client that a configuration describes; without a remote no credential is looked up. -/
def ofConfig (timer : Timer) (secrets : Secrets) (send : Http.Transport σ) (r : RemoteConfig) :
    Except RemoteError (Client σ) :=
  if r.kind = .none then .ok (disabled σ timer)
  else do
    let target ← RemoteTarget.ofConfig secrets r
    .ok {
      backend := target.backend r.timeoutMs send
      policy := .ofConfig r
      timeout := r.timeoutMs * Duration.nanosPerMilli
      enabled := true
      timer := timer }

def summary (c : Client σ) (s : State σ) : String :=
  "RemoteCache \x7b backend: " ++ Text.quoted c.name ++ ", enabled: " ++ toString c.enabled
    ++ ", degraded: " ++ toString s.degraded ++ " \x7d"

end Client
end BuildCache
