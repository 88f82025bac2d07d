import Mathlib.Data.List.Basic
import BuildCache.Proofs.Binary64
import BuildCache.Proofs.Remote.FailSoft
import BuildCache.Remote.Script

/-! # Retries: how often the backend is called, when, and what comes of it

A run of attempts has a closed form. It asks the backend again as long as answers are transient and retries
are left, and each attempt begins where the timer ends the delay after the one before. -/
namespace BuildCache

/-- Delays are not spread, do not get negative and have a limit that is a span of time. -/
structure RetryPolicy.Plain (p : RetryPolicy) : Prop where
  jitter : p.jitter = false
  multiplier : p.multiplier.isNegative = false
  limit : Duration.ofSeconds? p.maxDelay.seconds ≠ none

theorem RetryPolicy.Plain.delay? {p : RetryPolicy} (h : p.Plain) (retry : Nat) :
    ∃ delay, ∀ spread, p.delay? spread retry = some delay := by
  obtain ⟨limit, hlimit⟩ := Option.ne_none_iff_exists'.mp h.limit
  have hpower := Binary64.isNegative_power h.multiplier (min retry exponentLimit)
  obtain ⟨delay, -, hdelay⟩ :=
    Duration.ofSeconds?_least (Binary64.isNegative_mul (Duration.isNegative_seconds p.initialDelay) hpower) hlimit
  refine ⟨delay, fun spread => ?_⟩
  simpa [RetryPolicy.delay?, h.jitter] using hdelay

namespace Client

variable {σ α : Type} {c : Client σ}

/-- What is heard of an answer to a call that begins at a moment, and when: the answer if it comes in time, and
else the timeout. -/
def heard (c : Client σ) (begun : Nat) (reply : Reply α) : Except RemoteError α × Nat :=
  match (reply.latency.map (begun + ·)).filter (· ≤ c.timer.ends begun c.timeout) with
  | some moment => (reply.result, moment)
  | none => (.error c.timedOut, c.timer.ends begun c.timeout)

/-- What is heard calls for a retry. -/
def transient (c : Client σ) (begun : Nat) (reply : Reply α) : Bool :=
  match (c.heard begun reply).1 with
  | .ok _ => false
  | .error e => e.isTransient

theorem ask_eq (c : Client σ) (call : σ → σ × Reply α) (now : Nat) (remote : σ) :
    c.ask call now remote = ⟨(call remote).1, (c.heard now (call remote).2).1, (c.heard now (call remote).2).2⟩ := by
  simp only [ask, heard]
  cases Option.filter _ ((call remote).2.latency.map (now + ·)) <;> rfl

def after (call : σ → σ × Reply α) (remote : σ) (n : Nat) : σ := (fun s => (call s).1)^[n] remote

/-- The answer to the call after some others. -/
def reply (call : σ → σ × Reply α) (remote : σ) (n : Nat) : Reply α := (call (after call remote n)).2

theorem after_succ (call : σ → σ × Reply α) (remote : σ) (n : Nat) :
    (call (after call remote n)).1 = after call remote (n + 1) :=
  (Function.iterate_succ_apply' (fun s => (call s).1) n remote).symm

/-- When the attempt with some number begins if all before it are to be repeated. -/
def begins (c : Client σ) (replies : Nat → Reply α) : Nat → Nat
  | 0 => 0
  | n + 1 => c.timer.ends (c.heard (c.begins replies n) (replies n)).2 ((c.policy.delay? .even n).getD 0)

/-- What is heard of the attempt with some number. -/
def hears (c : Client σ) (replies : Nat → Reply α) (n : Nat) : Except RemoteError α × Nat :=
  c.heard (c.begins replies n) (replies n)

/-- What is heard of the attempt with some number calls for another one. -/
def again (c : Client σ) (replies : Nat → Reply α) (n : Nat) : Bool := c.transient (c.begins replies n) (replies n)

/-- The attempt with some number is the last one. -/
structure Settles (c : Client σ) (replies : Nat → Reply α) (n : Nat) : Prop where
  le : n ≤ c.policy.maxRetries
  before : ∀ i < n, c.again replies i = true
  last : n < c.policy.maxRetries → c.again replies n = false

/-- What attempts come to whose last one brings this answer. -/
def verdict (c : Client σ) (n : Nat) : Except RemoteError α → Option (Except RemoteError α)
  | .ok value => some (.ok value)
  | .error e => if e.isTransient then (c.exhausted? e (n + 1)).map .error else some (.error e)

section

variable {begun : Nat} {r : Reply α}

theorem verdict_settled (ht : c.transient begun r = false) (n : Nat) :
    c.verdict n (c.heard begun r).1 = some (c.heard begun r).1 := by
  unfold transient at ht
  split at ht
  · next value hr => rw [hr, verdict]
  · next e hr => simp [hr, verdict, ht]

theorem verdict_exhausted (ht : c.transient begun r = true) (n : Nat) :
    ∃ e, (c.heard begun r).1 = .error e ∧ c.verdict n (c.heard begun r).1 = (c.exhausted? e (n + 1)).map .error := by
  unfold transient at ht
  split at ht
  · cases ht
  · next e hr => exact ⟨e, hr, by simp [hr, verdict, ht]⟩

end

theorem attempt_unfired (call : σ → σ × Reply α) (now : Nat) (remote : σ) :
    c.attempt none call now remote = ⟨(call remote).1, (c.heard now (call remote).2).1,
      (c.heard now (call remote).2).2⟩ := by
  simp only [attempt, ask_eq, cancelledBy, Option.filter_none]

variable {draws : Nat → Spread} {call : σ → σ × Reply α}

theorem attempts_last {retries done now : Nat} {remote : σ}
    (h : 0 < retries → c.transient now (call remote).2 = false) :
    c.attempts none draws call retries done now remote = ⟨(call remote).1,
      c.verdict done (c.heard now (call remote).2).1, [now], (c.heard now (call remote).2).2⟩ := by
  unfold attempts
  rw [attempt_unfired]
  cases hr : (c.heard now (call remote).2).1 with
  | ok value => rfl
  | error e =>
    cases ht : e.isTransient with
    | false => simp [ht, verdict]
    | true =>
      cases retries with
      | zero => simp [ht, verdict]
      | succ retries =>
        have := h (Nat.succ_pos _)
        simp [transient, hr, ht] at this

theorem attempts_again {retries done now : Nat} {remote : σ} (ht : c.transient now (call remote).2 = true)
    {delay : Duration} (hd : c.policy.delay? (draws done) done = some delay) :
    c.attempts none draws call (retries + 1) done now remote =
      let rest := c.attempts none draws call retries (done + 1)
        (c.timer.ends (c.heard now (call remote).2).2 delay) (call remote).1
      { rest with calls := now :: rest.calls } := by
  rw [attempts, attempt_unfired]
  unfold transient at ht
  split at ht
  · cases ht
  · next e he => simp [he, ht, hd, cancelledBy]

/-- The run that ends with the attempt of some number, from an earlier attempt on. -/
def runTo (c : Client σ) (call : σ → σ × Reply α) (remote : σ) (first n : Nat) : Run σ α where
  remote := after call remote (n + 1)
  result := c.verdict n (c.hears (reply call remote) n).1
  calls := (List.range' first (n + 1 - first)).map (c.begins (reply call remote))
  elapsed := (c.hears (reply call remote) n).2

/-- The attempts from one on that is made, by induction on the retries that are left. -/
theorem attempts_settles (hplain : c.policy.Plain) (draws : Nat → Spread) (remote : σ) {retries done : Nat}
    (hmax : done + retries = c.policy.maxRetries) (hbefore : ∀ i < done, c.again (reply call remote) i = true) :
    ∃ n, c.Settles (reply call remote) n ∧ done ≤ n ∧
      c.attempts none draws call retries done (c.begins (reply call remote) done) (after call remote done)
        = c.runTo call remote done n := by
  induction retries generalizing done with
  | zero =>
    refine ⟨done, ⟨by omega, hbefore, fun hlt => by omega⟩, Nat.le_refl _, ?_⟩
    rw [attempts_last fun h => absurd h (Nat.lt_irrefl 0), after_succ, runTo, Nat.add_sub_cancel_left]
    rfl
  | succ retries ih =>
    cases ht : c.again (reply call remote) done with
    | false =>
      refine ⟨done, ⟨by omega, hbefore, fun _ => ht⟩, Nat.le_refl _, ?_⟩
      rw [attempts_last fun _ => ht, after_succ, runTo, Nat.add_sub_cancel_left]
      rfl
    | true =>
      obtain ⟨delay, hd⟩ := hplain.delay? done
      have hbefore' (i : Nat) (hi : i < done + 1) : c.again (reply call remote) i = true := by
        rcases Nat.lt_succ_iff_lt_or_eq.mp hi with hi | rfl
        · exact hbefore i hi
        · exact ht
      obtain ⟨n, hsettles, hle, hrun⟩ := ih (by omega) hbefore'
      refine ⟨n, hsettles, by omega, ?_⟩
      have hnext : c.begins (reply call remote) (done + 1) = c.timer.ends
          (c.heard (c.begins (reply call remote) done) (call (after call remote done)).2).2 delay := by
        simp [begins, hd, reply]
      have hrange : List.range' done (n + 1 - done) = done :: List.range' (done + 1) (n + 1 - (done + 1)) := by
        rw [show n + 1 - done = n + 1 - (done + 1) + 1 by omega, List.range'_succ]
      rw [attempts_again ht (hd _), after_succ, ← hnext, hrun, runTo, runTo, hrange, List.map_cons]

theorem run_settles (hplain : c.policy.Plain) (draws : Nat → Spread) (call : σ → σ × Reply α) (remote : σ) :
    ∃ n, c.Settles (reply call remote) n ∧ c.run none draws call remote = c.runTo call remote 0 n := by
  obtain ⟨n, hsettles, -, hrun⟩ := attempts_settles hplain draws remote (Nat.zero_add _) nofun
  exact ⟨n, hsettles, hrun⟩

/-- The answer of a script with some number, past its end a fixed one at once. -/
def answer (fallback : α) (script : List (Reply α)) (n : Nat) : Reply α := script[n]?.getD ⟨.ok fallback, some 0⟩

/-- The number of answers at the beginning that call for retries. -/
def failures (c : Client σ) (fallback : α) (script : List (Reply α)) : Nat :=
  (List.range script.length).findIdx fun n => !c.again (answer fallback script) n

theorem draw_drop (fallback : α) (script : List (Reply α)) (n : Nat) :
    Script.draw fallback (script.drop n) = (answer fallback script n, script.drop (n + 1)) := by
  rw [answer, ← List.head?_drop, ← List.tail_drop]
  cases script.drop n <;> rfl

theorem after_fetch (name : String) (k : CacheKey) (script : Script) (n : Nat) :
    after ((Backend.scripted name).fetch k) script n = { script with fetches := script.fetches.drop n } := by
  induction n with
  | zero => rfl
  | succ n ih =>
    rw [← after_succ, ih]
    simp only [Backend.scripted, draw_drop]

theorem after_publish (name : String) (k : CacheKey) (data : Bytes) (script : Script) (n : Nat) :
    after ((Backend.scripted name).publish k data) script n
      = { script with publishes := script.publishes.drop n } := by
  induction n with
  | zero => rfl
  | succ n ih =>
    rw [← after_succ, ih]
    simp only [Backend.scripted, draw_drop]

theorem reply_fetch (name : String) (k : CacheKey) (script : Script) :
    reply ((Backend.scripted name).fetch k) script = answer none script.fetches := by
  funext n
  rw [reply, after_fetch]
  simp only [Backend.scripted, draw_drop]

theorem reply_publish (name : String) (k : CacheKey) (data : Bytes) (script : Script) :
    reply ((Backend.scripted name).publish k data) script = answer () script.publishes := by
  funext n
  rw [reply, after_publish]
  simp only [Backend.scripted, draw_drop]

section

variable {fallback : α} {script : List (Reply α)} {n : Nat}

theorem failures_le (c : Client σ) (fallback : α) (script : List (Reply α)) :
    c.failures fallback script ≤ script.length := by
  have hle : (List.range script.length).findIdx (fun n => !c.again (answer fallback script) n)
      ≤ (List.range script.length).length := List.findIdx_le_length
  simpa [failures] using hle

theorem again_of_lt_failures (h : n < c.failures fallback script) : c.again (answer fallback script) n = true := by
  simpa using List.not_of_lt_findIdx h

theorem again_length (c : Client σ) (fallback : α) (script : List (Reply α)) :
    c.again (answer fallback script) script.length = false := by
  have hdue (begun : Nat) : begun ≤ c.timer.ends begun c.timeout :=
    (Nat.le_add_right _ _).trans (c.timer.not_early begun c.timeout)
  have hended (begun : Nat) : c.heard begun ⟨.ok fallback, some 0⟩ = (.ok fallback, begun) := by
    simp [heard, Option.filter_some, hdue]
  simp [again, transient, answer, hended]

theorem not_again_failures (c : Client σ) (fallback : α) (script : List (Reply α)) :
    c.again (answer fallback script) (c.failures fallback script) = false := by
  rcases Nat.lt_or_eq_of_le (c.failures_le fallback script) with hlt | heq
  · have hlt' : (List.range script.length).findIdx (fun n => !c.again (answer fallback script) n)
        < (List.range script.length).length := by
      rw [List.length_range]
      exact hlt
    have hfirst := List.findIdx_getElem (w := hlt')
    rwa [List.getElem_range, Bool.not_eq_true'] at hfirst
  · rw [heq]
    exact c.again_length fallback script

theorem Settles.eq (h : c.Settles (answer fallback script) n) :
    n = min (c.failures fallback script) c.policy.maxRetries := by
  have hle := h.le
  rcases Nat.lt_trichotomy n (c.failures fallback script) with hlt | rfl | hgt
  · have : ¬n < c.policy.maxRetries := fun hn => by
      have := h.last hn
      rw [again_of_lt_failures hlt] at this
      cases this
    omega
  · omega
  · have := h.before _ hgt
    rw [not_again_failures] at this
    cases this

end

/-- How a run of attempts goes against a script: how often the backend is called, when, and what comes of
it. A retry begins where the timer ends its delay, on the first tick that is not before it if the timer can be
set to so long a delay. -/
structure Retries (c : Client σ) (fallback : α) (script : List (Reply α)) (r : Run σ α) : Prop where
  count : r.calls.length = min (c.failures fallback script) c.policy.maxRetries + 1
  answered : c.failures fallback script ≤ c.policy.maxRetries →
    ∃ begun, r.calls[c.failures fallback script]? = some begun ∧
      r.result = some (c.heard begun (answer fallback script (c.failures fallback script))).1
  exhausted : c.policy.maxRetries < c.failures fallback script →
    ∃ begun e, r.calls[c.policy.maxRetries]? = some begun ∧
      (c.heard begun (answer fallback script c.policy.maxRetries)).1 = .error e ∧
      r.result = some (.error (.unavailable c.name s!"{e.message} (after {c.policy.maxRetries + 1} attempts)"))
  first : r.calls[0]? = some 0
  spaced : ∀ {i begun next}, r.calls[i]? = some begun → r.calls[i + 1]? = some next →
    ∃ delay, (∀ spread, c.policy.delay? spread i = some delay) ∧
      let ended := (c.heard begun (answer fallback script i)).2
      next = c.timer.ends ended delay ∧ (delay ≤ c.timer.span →
        c.timer.tick ∣ next + c.timer.phase ∧ ended + delay ≤ next ∧ next < ended + delay + c.timer.tick)
  last : ∀ {i begun}, r.calls[i]? = some begun → i + 1 = r.calls.length →
    r.elapsed = (c.heard begun (answer fallback script i)).2

theorem Settles.retries (hplain : c.policy.Plain) {call : σ → σ × Reply α} {remote : σ} {fallback : α}
    {script : List (Reply α)} {n : Nat} (hreply : reply call remote = answer fallback script)
    (hlen : script.length + 1 < RetryPolicy.attemptLimit) (h : c.Settles (reply call remote) n) :
    c.Retries fallback script (c.runTo call remote 0 n) := by
  have hn : n = min (c.failures fallback script) c.policy.maxRetries := (hreply ▸ h).eq
  have hcalls {i begun : Nat} (hi : (c.runTo call remote 0 n).calls[i]? = some begun) :
      i ≤ n ∧ c.begins (answer fallback script) i = begun := by
    simpa [runTo, hreply, List.getElem?_eq_some_iff, Nat.lt_succ_iff] using hi
  have hcall {i : Nat} (hi : i ≤ n) :
      (c.runTo call remote 0 n).calls[i]? = some (c.begins (answer fallback script) i) := by
    simp [runTo, hreply, Nat.lt_succ_of_le hi]
  constructor
  · simp [runTo, hn]
  · intro hle
    obtain rfl : n = c.failures fallback script := by omega
    refine ⟨_, hcall (Nat.le_refl _), ?_⟩
    simp only [runTo, hreply]
    exact verdict_settled (c.not_again_failures fallback script) _
  · intro hlt
    obtain rfl : n = c.policy.maxRetries := by omega
    have hcounted : c.policy.maxRetries + 1 < RetryPolicy.attemptLimit := by
      have := c.failures_le fallback script
      omega
    obtain ⟨e, he, hverdict⟩ := verdict_exhausted (again_of_lt_failures hlt) c.policy.maxRetries
    refine ⟨_, e, hcall (Nat.le_refl _), he, ?_⟩
    simp only [runTo, hreply]
    exact hverdict.trans (by rw [exhausted?, if_pos hcounted]; rfl)
  · simp [runTo, begins]
  · intro i begun next hbegun hnext
    obtain ⟨hle, rfl⟩ := hcalls hbegun
    obtain ⟨-, rfl⟩ := hcalls hnext
    obtain ⟨delay, hd⟩ := hplain.delay? i
    refine ⟨delay, hd, ?_⟩
    rw [begins, hd]
    exact ⟨rfl, fun hspan => ⟨c.timer.on_tick _ _ hspan,
      (Nat.add_le_add_left (Nat.le_min.mpr ⟨Nat.le_refl _, hspan⟩) _).trans (c.timer.not_early _ _),
      c.timer.in_time _ _ hspan⟩⟩
  · intro i begun hbegun hlast
    obtain ⟨-, rfl⟩ := hcalls hbegun
    obtain rfl : i = n := by simpa [runTo] using hlast
    simp only [runTo, hreply]
    rfl

/-- A client of a scripted remote whose policy is plain. -/
structure Follows (c : Client Script) : Prop where
  plain : c.policy.Plain
  patient : 0 < c.timeout
  enabled : c.enabled = true
  backend : c.backend = .scripted c.name

/-- Fetches and publications on a remote that follows a script and was not given up: they are their runs of
attempts, which go by the script and take from it what they hear. -/
theorem scripted_retries {c : Client Script} (hc : c.Follows) {s : State Script} (hd : s.degraded = false)
    (hfetches : s.remote.fetches.length + 1 < RetryPolicy.attemptLimit)
    (hpublishes : s.remote.publishes.length + 1 < RetryPolicy.attemptLimit) (draws : Nat → Spread) (k : CacheKey)
    (data : Bytes) :
    let fetching := c.run none draws (c.backend.fetch k) s.remote
    let publishing := c.run none draws (c.backend.publish k data) s.remote
    (c.fetch none draws k s = fetching.finished noteFetch s ∧ c.Retries none s.remote.fetches fetching ∧
      fetching.remote = { s.remote with fetches := s.remote.fetches.drop fetching.calls.length }) ∧
    c.publish none draws k data s = publishing.finished noted s ∧ c.Retries () s.remote.publishes publishing ∧
      publishing.remote = { s.remote with publishes := s.remote.publishes.drop publishing.calls.length } := by
  refine ⟨⟨fetch_tried hc.enabled hd none draws k, ?_⟩, publish_tried hc.enabled hd none draws k data, ?_⟩
  · rw [hc.backend]
    obtain ⟨n, hsettles, hrun⟩ := run_settles hc.plain draws ((Backend.scripted c.name).fetch k) s.remote
    rw [hrun]
    refine ⟨hsettles.retries hc.plain (reply_fetch c.name k s.remote) hfetches, ?_⟩
    simp [runTo, after_fetch]
  · rw [hc.backend]
    obtain ⟨n, hsettles, hrun⟩ := run_settles hc.plain draws ((Backend.scripted c.name).publish k data) s.remote
    rw [hrun]
    refine ⟨hsettles.retries hc.plain (reply_publish c.name k data s.remote) hpublishes, ?_⟩
    simp [runTo, after_publish]

/-- A client of a scripted remote that retries once, after some delay. -/
def retrying (delay : Duration) : Client Script where
  backend := .scripted "remote"
  policy := ⟨1, delay, .ofNat 1, delay, false⟩
  timeout := Duration.nanosPerSecond
  enabled := true
  timer := .millisecond

def breaking : Script := ⟨List.replicate 2 ⟨.error (.transport "remote" "reset"), some 0⟩, []⟩

theorem scripted_retries_breaking : (retrying 1000001).Follows ∧ (State.initial breaking).degraded = false ∧
    breaking.fetches.length + 1 < RetryPolicy.attemptLimit ∧
    breaking.publishes.length + 1 < RetryPolicy.attemptLimit ∧
    let fetching := (retrying 1000001).run none (fun _ => .even) ((retrying 1000001).backend.fetch blankKey) breaking
    (retrying 1000001).Retries none breaking.fetches fetching ∧ fetching.calls.length = 2 ∧
      fetching.remote.fetches = [] := by
  have hc : (retrying 1000001).Follows :=
    ⟨⟨rfl, by decide +kernel, by decide +kernel⟩, by decide, rfl, rfl⟩
  have hfetches : breaking.fetches.length + 1 < RetryPolicy.attemptLimit := by decide
  have hpublishes : breaking.publishes.length + 1 < RetryPolicy.attemptLimit := by decide
  have hfailures : (retrying 1000001).failures none breaking.fetches = 2 := by decide +kernel
  obtain ⟨⟨-, hretries, htaken⟩, -⟩ :=
    scripted_retries hc (s := .initial breaking) rfl hfetches hpublishes (fun _ => .even) blankKey []
  change Retries _ _ breaking.fetches ((retrying 1000001).run none _ _ breaking) at hretries
  have hcount := hretries.count
  rw [hfailures] at hcount
  exact ⟨hc, rfl, hfetches, hpublishes, hretries, hcount,
    (congrArg Script.fetches htaken).trans (List.drop_of_length_le (Nat.le_of_eq hcount.symm))⟩

/-- Retries do not begin just their delay after a failure, but on a tick of the timer. At the end of the range
of time a delay is not even a span of time. -/
theorem retries_inexact :
    ((retrying 1000001).policy.delay? .even 0 = some 1000001 ∧
      ((retrying 1000001).fetch none (fun _ => .even) blankKey (.initial breaking)).calls = [0, 2000000]) ∧
    ((retrying 18446744073709551615999999999).policy.delay? .even 0 = none ∧
      ((retrying 18446744073709551615999999999).fetch none (fun _ => .even) blankKey (.initial breaking)).result
        = none) := by
  decide +kernel

end Client
end BuildCache
