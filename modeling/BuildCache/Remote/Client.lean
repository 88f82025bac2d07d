import BuildCache.Remote.Address
import BuildCache.Remote.Retry
import BuildCache.Remote.Timer

/-! # The remote client: timeouts, retries and cancellation, and giving up on a remote that fails

Here every call is made in one go, and time is counted in nanoseconds from its start. A token is the moment at
which a call is cancelled, zero if it already is; at one moment cancellation comes before an answer, and an
answer before the timeout. -/
namespace BuildCache

/-- An answer, and the time until it comes; without a time it never does. -/
structure Reply (α : Type) where
  result : Except RemoteError α
  latency : Option Nat

/-- A store of bytes by key, with a state that calls may change. -/
structure Backend (σ : Type) where
  name : String
  fetch : CacheKey → σ → σ × Reply (Option Bytes)
  publish : CacheKey → Bytes → σ → σ × Reply Unit

/-- Holds nothing and takes everything. -/
def Backend.disabled (σ : Type) : Backend σ where
  name := "disabled"
  fetch _ s := (s, ⟨.ok none, some 0⟩)
  publish _ _ s := (s, ⟨.ok (), some 0⟩)

structure Client (σ : Type) where
  backend : Backend σ
  policy : RetryPolicy
  /-- The longest wait for an answer. -/
  timeout : Duration
  enabled : Bool
  timer : Timer

namespace Client

structure Counters where
  hits : Nat
  misses : Nat
  failures : Nat
  degradedSkips : Nat
  publishes : Nat
  publishFailures : Nat
  deriving DecidableEq

def Counters.named (c : Counters) : List (String × Nat) := [
  ("hits", c.hits), ("misses", c.misses), ("failures", c.failures), ("degraded_skips", c.degradedSkips),
  ("publishes", c.publishes), ("publish_failures", c.publishFailures)]

/-- What calls change: the remote, whether it was given up, and the counters. -/
structure State (σ : Type) where
  remote : σ
  degraded : Bool
  counters : Counters
  deriving DecidableEq

def State.initial {σ : Type} (remote : σ) : State σ := ⟨remote, false, ⟨0, 0, 0, 0, 0, 0⟩⟩

variable {σ α : Type}

def disabled (σ : Type) (timer : Timer) : Client σ where
  backend := .disabled σ
  policy := .noRetry
  timeout := 0
  enabled := false
  timer := timer

def name (c : Client σ) : String := c.backend.name

/-- How one attempt went. -/
structure Attempt (σ α : Type) where
  remote : σ
  result : Except RemoteError α
  ended : Nat

def timedOut (c : Client σ) : RemoteError := .timeout c.name (Duration.millis c.timeout)

/-- Calls the backend at a moment and waits for the answer until the timeout ends. -/
def ask (c : Client σ) (call : σ → σ × Reply α) (now : Nat) (remote : σ) : Attempt σ α :=
  let (remote, reply) := call remote
  match (reply.latency.map (now + ·)).filter (· ≤ c.timer.ends now c.timeout) with
  | some moment => ⟨remote, reply.result, moment⟩
  | none => ⟨remote, .error c.timedOut, c.timer.ends now c.timeout⟩

/-- The moment of cancellation if it is not after a moment. -/
def cancelledBy (token : Option Nat) (moment : Nat) : Option Nat := token.filter (· ≤ moment)

def attempt (c : Client σ) (token : Option Nat) (call : σ → σ × Reply α) (now : Nat) (remote : σ) :
    Attempt σ α :=
  let a := c.ask call now remote
  match cancelledBy token a.ended with
  | some moment => { a with result := .error .cancelled, ended := moment }
  | none => a

/-- How a run of attempts went. -/
structure Run (σ α : Type) where
  remote : σ
  /-- Nothing if the call is lost: a retry has no delay, or attempts can be counted no further. -/
  result : Option (Except RemoteError α)
  /-- When attempts began. -/
  calls : List Nat
  elapsed : Nat

/-- The failure after some attempts, which counts them. -/
def exhausted? (c : Client σ) (e : RemoteError) (attempts : Nat) : Option RemoteError :=
  if attempts < RetryPolicy.attemptLimit then some (.unavailable c.name s!"{e.message} (after {attempts} attempts)")
  else none

/-- Attempts until one succeeds, fails for good or leaves no retry, with the spreads that are drawn for delays. -/
def attempts (c : Client σ) (token : Option Nat) (draws : Nat → Spread) (call : σ → σ × Reply α) :
    (retries done now : Nat) → σ → Run σ α
  | retries, done, now, remote =>
    let a := c.attempt token call now remote
    match a.result with
    | .ok value => ⟨a.remote, some (.ok value), [now], a.ended⟩
    | .error e =>
      if !e.isTransient then ⟨a.remote, some (.error e), [now], a.ended⟩
      else
        match retries with
        | 0 => ⟨a.remote, (c.exhausted? e (done + 1)).map .error, [now], a.ended⟩
        | retries + 1 =>
          match c.policy.delay? (draws done) done with
          | none => ⟨a.remote, none, [now], a.ended⟩
          | some delay =>
            let next := c.timer.ends a.ended delay
            match cancelledBy token next with
            | some moment => ⟨a.remote, some (.error .cancelled), [now], moment⟩
            | none =>
              let rest := attempts c token draws call retries (done + 1) next a.remote
              { rest with calls := now :: rest.calls }

/-- All attempts that the policy allows, none if the call is cancelled beforehand. -/
def run (c : Client σ) (token : Option Nat) (draws : Nat → Spread) (call : σ → σ × Reply α) (remote : σ) : Run σ α :=
  if token = some 0 then ⟨remote, some (.error .cancelled), [], 0⟩
  else c.attempts token draws call c.policy.maxRetries 0 0 remote

/-- How a call of the client went. -/
structure Call (σ α : Type) where
  state : State σ
  result : Option (Except RemoteError α)
  calls : List Nat
  elapsed : Nat

def skipped (s : State σ) : State σ :=
  { s with counters.degradedSkips := s.counters.degradedSkips + 1 }

/-- Counts what a fetch came to. A failure makes a miss, and the remote is given up. -/
def noteFetch (s : State σ) : Except RemoteError (Option Bytes) → State σ × Except RemoteError (Option Bytes)
  | .ok (some bytes) => ({ s with counters.hits := s.counters.hits + 1 }, .ok (some bytes))
  | .ok none => ({ s with counters.misses := s.counters.misses + 1 }, .ok none)
  | .error .cancelled => (s, .error .cancelled)
  | .error _ => ({ s with degraded := true, counters.failures := s.counters.failures + 1 }, .ok none)

def fetch (c : Client σ) (token : Option Nat) (draws : Nat → Spread) (k : CacheKey) (s : State σ) :
    Call σ (Option Bytes) :=
  if !c.enabled then ⟨s, some (.ok none), [], 0⟩
  else if s.degraded then ⟨skipped s, some (.ok none), [], 0⟩
  else
    let r := c.run token draws (c.backend.fetch k) s.remote
    let s := { s with remote := r.remote }
    match r.result with
    | some result =>
      let (s, result) := noteFetch s result
      ⟨s, some result, r.calls, r.elapsed⟩
    | none => ⟨s, none, r.calls, r.elapsed⟩

def givenUp (c : Client σ) : RemoteError :=
  .unavailable c.name "remote marked unavailable earlier in this build"

/-- Counts what a publication came to; the remote is not given up for a failure. -/
def notePublish (s : State σ) : Except RemoteError Unit → State σ
  | .ok () => { s with counters.publishes := s.counters.publishes + 1 }
  | .error .cancelled => s
  | .error _ => { s with counters.publishFailures := s.counters.publishFailures + 1 }

def publish (c : Client σ) (token : Option Nat) (draws : Nat → Spread) (k : CacheKey) (data : Bytes) (s : State σ) :
    Call σ Unit :=
  if !c.enabled then ⟨s, some (.ok ()), [], 0⟩
  else if s.degraded then ⟨skipped s, some (.error c.givenUp), [], 0⟩
  else
    let r := c.run token draws (c.backend.publish k data) s.remote
    let s := { s with remote := r.remote }
    ⟨r.result.elim s (notePublish s), r.result, r.calls, r.elapsed⟩

/-- A new build tries the remote again. -/
def reset (s : State σ) : State σ := { s with degraded := false }

end Client
end BuildCache
