import BuildCache.Remote.Client

/-! # Calls of the remote client as single steps with waits between them

While a call waits, other calls of the same client may come; a call sees that the remote was given up
only as it begins. Moments are counted in nanoseconds from any moment that the calls have in common. -/
namespace BuildCache.Client

variable {σ α : Type}

/-- What a call waits for, after some attempts that failed, and the moment at which the wait ends. -/
inductive Wait (α : Type)
  | answer (failed : Nat) (result : Except RemoteError α) (ends : Nat)
  | delay (failed ends : Nat)

def Wait.ends : Wait α → Nat
  | answer _ _ ends | delay _ ends => ends

/-- The attempts that failed before a wait. -/
def Wait.failed : Wait α → Nat
  | answer n _ _ | delay n _ => n

/-- Where a step leaves a call. -/
inductive Progress (α : Type)
  | waiting (w : Wait α)
  | over (result : Except RemoteError α)
  /-- A retry has no delay, or attempts can be counted no further. -/
  | lost

/-- The circumstances of a step. -/
structure Turn where
  moment : Nat
  /-- How the delay is spread that the step may choose. -/
  spread : Spread
  /-- Whether a token that has fired is seen before what else there is to see. -/
  tokenFirst : Bool
  deriving DecidableEq

/-- A turn at some moment that heeds a token, with a delay that is not spread. -/
def Turn.plain (moment : Nat) : Turn := ⟨moment, .even, true⟩

def begin (c : Client σ) (call : σ → σ × Reply α) (failed now : Nat) (remote : σ) : σ × Progress α :=
  let a := c.ask call now remote
  (a.remote, .waiting (.answer failed a.result a.ended))

/-- What follows an answer: a transient failure is retried as often as the policy allows. -/
def follow (c : Client σ) (failed : Nat) (turn : Turn) : Except RemoteError α → Progress α
  | .ok value => .over (.ok value)
  | .error e =>
    if !e.isTransient then .over (.error e)
    else if c.policy.maxRetries ≤ failed then
      match c.exhausted? e (failed + 1) with
      | some failure => .over (.error failure)
      | none => .lost
    else
      match c.policy.delay? turn.spread failed with
      | some delay => .waiting (.delay (failed + 1) (c.timer.ends turn.moment delay))
      | none => .lost

def resume (c : Client σ) (call : σ → σ × Reply α) (w : Wait α) (turn : Turn) (remote : σ) : σ × Progress α :=
  match w with
  | .answer failed result _ => (remote, c.follow failed turn result)
  | .delay failed _ => c.begin call failed turn.moment remote

/-- Goes through at most so many waits, each to its end, with nothing in between. -/
def settle (c : Client σ) (draws : Nat → Spread) (call : σ → σ × Reply α) :
    (waits : Nat) → σ × Progress α → σ × Progress α
  | waits + 1, (remote, .waiting w) =>
    c.settle draws call waits (c.resume call w ⟨w.ends, draws w.failed, true⟩ remote)
  | _, p => p

/-- What the steps of a call lead to is what the attempts lead to that are made in one go. -/
theorem settle_begin (c : Client σ) (draws : Nat → Spread) (call : σ → σ × Reply α) {retries failed : Nat} (now : Nat)
    (remote : σ) (h : failed + retries = c.policy.maxRetries) :
    c.settle draws call (2 * retries + 1) (c.begin call failed now remote)
      = ((c.attempts none draws call retries failed now remote).remote,
        ((c.attempts none draws call retries failed now remote).result).elim .lost .over) := by
  induction retries generalizing failed now remote with
  | zero =>
    rw [attempts]
    simp only [begin, settle, resume, follow, attempt, cancelledBy, Option.filter_none]
    cases (c.ask call now remote).result with
    | ok value => rfl
    | error e =>
      by_cases ht : e.isTransient
      · cases he : c.exhausted? e (failed + 1) <;> simp [ht, ← h, he]
      · simp [ht]
  | succ retries ih =>
    have hlt : ¬c.policy.maxRetries ≤ failed := by omega
    rw [attempts, show 2 * (retries + 1) + 1 = 2 * retries + 1 + 1 + 1 by omega]
    simp only [begin, settle, resume, follow, attempt, cancelledBy, Option.filter_none, Wait.failed, Wait.ends]
    cases (c.ask call now remote).result with
    | ok value => rfl
    | error e =>
      by_cases ht : e.isTransient
      · cases hd : c.policy.delay? (draws failed) failed with
        | none => simp [ht, hlt, settle]
        | some delay =>
          simp only [ht, hlt, Bool.not_true, Bool.false_eq_true, if_false]
          exact ih _ _ (by omega)
      · simp [ht, settle]

/-! A step of a call may end it once it is cancelled. If there is an answer by then, either of the two may be
seen first. -/

def start (c : Client σ) (cancelled : Bool) (call : σ → σ × Reply α) (turn : Turn) (s : State σ) :
    State σ × Progress α :=
  if cancelled && turn.tokenFirst then (s, .over (.error .cancelled))
  else
    let (remote, p) := c.begin call 0 turn.moment s.remote
    ({ s with remote }, p)

def goOn (c : Client σ) (cancelled : Bool) (call : σ → σ × Reply α) (w : Wait α) (turn : Turn) (s : State σ) :
    State σ × Progress α :=
  if cancelled && turn.tokenFirst then (s, .over (.error .cancelled))
  else
    let (remote, p) := c.resume call w turn s.remote
    ({ s with remote }, p)

def startFetch (c : Client σ) (cancelled : Bool) (k : CacheKey) (turn : Turn) (s : State σ) :
    State σ × Progress (Option Bytes) :=
  if !c.enabled then (s, .over (.ok none))
  else if s.degraded then (skipped s, .over (.ok none))
  else c.start cancelled (c.backend.fetch k) turn s

def resumeFetch (c : Client σ) (cancelled : Bool) (k : CacheKey) (w : Wait (Option Bytes)) (turn : Turn)
    (s : State σ) : State σ × Progress (Option Bytes) :=
  match c.goOn cancelled (c.backend.fetch k) w turn s with
  | (s, .over result) =>
    let (s, result) := noteFetch s result
    (s, .over result)
  | r => r

def startPublish (c : Client σ) (cancelled : Bool) (k : CacheKey) (data : Bytes) (turn : Turn) (s : State σ) :
    State σ × Progress Unit :=
  if !c.enabled then (s, .over (.ok ()))
  else if s.degraded then (skipped s, .over (.error c.givenUp))
  else c.start cancelled (c.backend.publish k data) turn s

def resumePublish (c : Client σ) (cancelled : Bool) (k : CacheKey) (data : Bytes) (w : Wait Unit) (turn : Turn)
    (s : State σ) : State σ × Progress Unit :=
  match c.goOn cancelled (c.backend.publish k data) w turn s with
  | (s, .over result) => (notePublish s result, .over result)
  | r => r

end BuildCache.Client
