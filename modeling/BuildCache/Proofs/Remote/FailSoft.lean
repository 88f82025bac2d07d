import Mathlib.Data.List.Basic
import BuildCache.Proofs.Remote.Calls

/-! # Failing softly: what fetches and publications come to on a remote with any failures

A fetch that fails is a miss, and the remote is left alone until the next build. -/
namespace BuildCache

def Backend.NeverCancels {σ : Type} (b : Backend σ) : Prop :=
  (∀ k remote, (b.fetch k remote).2.result ≠ .error .cancelled) ∧
    ∀ k data remote, (b.publish k data remote).2.result ≠ .error .cancelled

namespace Client

variable {σ α : Type}

/-- The beginning of a build, or a call from its beginning to its end: with the answers that it got from
the backend, its result, which is missing where it is lost, and whether it is `fired`, as its token must be to
cancel it. -/
inductive Event
  | fetch (k : CacheKey) (fired : Bool) (answers : List (Except RemoteError (Option Bytes)))
      (result : Option (Except RemoteError (Option Bytes)))
  | publish (k : CacheKey) (data : Bytes) (fired : Bool) (answers : List (Except RemoteError Unit))
      (result : Option (Except RemoteError Unit))
  | reset

/-- An event leads from a state to another one. The steps of a call are taken at any moments. -/
inductive Serves (c : Client σ) : State σ → Event → State σ → Prop
  | fetch {s t : State σ} {k : CacheKey} {fired : Bool} {answers : List (Except RemoteError (Option Bytes))}
      {result : Option (Except RemoteError (Option Bytes))} (cancelled : Bool) (turn : Turn)
      (hc : cancelled = true → fired = true)
      (h : Ends (fun cancelled => c.resumeFetch cancelled k) fired (c.startFetch cancelled k turn s) answers
        (t, result)) :
      Serves c s (.fetch k fired answers result) t
  | publish {s t : State σ} {k : CacheKey} {data : Bytes} {fired : Bool} {answers : List (Except RemoteError Unit)}
      {result : Option (Except RemoteError Unit)} (cancelled : Bool) (turn : Turn)
      (hc : cancelled = true → fired = true)
      (h : Ends (fun cancelled => c.resumePublish cancelled k data) fired (c.startPublish cancelled k data turn s)
        answers (t, result)) :
      Serves c s (.publish k data fired answers result) t
  | reset {s : State σ} : Serves c s .reset (Client.reset s)

inductive History (c : Client σ) (remote : σ) : List Event → State σ → Prop
  | nil : History c remote [] (.initial remote)
  | snoc {log : List Event} {s t : State σ} {event : Event} (h : History c remote log s) (hs : c.Serves s event t) :
      History c remote (log ++ [event]) t

/-- A fetch whose answers make it fail. -/
def Event.FailsFetch (c : Client σ) : Event → Prop
  | fetch _ _ answers _ => c.Fails 0 answers
  | publish .. | reset => False

/-- Since the last beginning of a build some fetch failed. -/
def FailedLately (c : Client σ) (log : List Event) : Prop :=
  ∃ earlier event later, log = earlier ++ event :: later ∧ .reset ∉ later ∧ event.FailsFetch c

/-- How a fetch can go that gets these answers. -/
inductive FetchGoes (c : Client σ) (s : State σ) (fired : Bool) (answers : List (Except RemoteError (Option Bytes))) :
    Option (Except RemoteError (Option Bytes)) → State σ → Prop
  | skipped (hd : s.degraded = true) (hn : answers = []) : FetchGoes c s fired answers (some (.ok none))
      { s with counters.degradedSkips := s.counters.degradedSkips + 1 }
  | hit {remote : σ} {bytes : Bytes} (hd : s.degraded = false) (hlast : answers.getLast? = some (.ok (some bytes))) :
      FetchGoes c s fired answers (some (.ok (some bytes)))
        { s with remote, counters.hits := s.counters.hits + 1 }
  | miss {remote : σ} (hd : s.degraded = false) (hlast : answers.getLast? = some (.ok none)) :
      FetchGoes c s fired answers (some (.ok none)) { s with remote, counters.misses := s.counters.misses + 1 }
  | failure {remote : σ} (hd : s.degraded = false) (hf : c.Fails 0 answers) :
      FetchGoes c s fired answers (some (.ok none))
        { s with remote, degraded := true, counters.failures := s.counters.failures + 1 }
  | cancelled {remote : σ} (hd : s.degraded = false) (hfired : fired = true) (hn : ¬c.Fails 0 answers) :
      FetchGoes c s fired answers (some (.error .cancelled)) { s with remote }
  | lost {remote : σ} (hd : s.degraded = false) (hloses : c.policy.Loses) (hn : ¬c.Fails 0 answers) :
      FetchGoes c s fired answers none { s with remote }

/-- How a publication can go that gets these answers. -/
inductive PublishGoes (c : Client σ) (s : State σ) (fired : Bool) (answers : List (Except RemoteError Unit)) :
    Option (Except RemoteError Unit) → State σ → Prop
  | skipped (hd : s.degraded = true) (hn : answers = []) : PublishGoes c s fired answers (some (.error c.givenUp))
      { s with counters.degradedSkips := s.counters.degradedSkips + 1 }
  | stored {remote : σ} (hd : s.degraded = false) (hlast : answers.getLast? = some (.ok ())) :
      PublishGoes c s fired answers (some (.ok ())) { s with remote, counters.publishes := s.counters.publishes + 1 }
  | failure {remote : σ} {e : RemoteError} (hd : s.degraded = false) (he : e ≠ .cancelled) (hf : c.Fails 0 answers) :
      PublishGoes c s fired answers (some (.error e))
        { s with remote, counters.publishFailures := s.counters.publishFailures + 1 }
  | cancelled {remote : σ} (hd : s.degraded = false) (hfired : fired = true) (hn : ¬c.Fails 0 answers) :
      PublishGoes c s fired answers (some (.error .cancelled)) { s with remote }
  | lost {remote : σ} (hd : s.degraded = false) (hloses : c.policy.Loses) (hn : ¬c.Fails 0 answers) :
      PublishGoes c s fired answers none { s with remote }

variable {c : Client σ} {s t : State σ} {fired : Bool}

theorem noteFetch_failure {e : RemoteError} (he : e ≠ .cancelled) :
    noteFetch s (.error e) = ({ s with degraded := true, counters.failures := s.counters.failures + 1 },
      .ok none) := by
  cases e with
  | cancelled => exact absurd rfl he
  | timeout | transport | status | unavailable | config => rfl

theorem notePublish_failure {e : RemoteError} (he : e ≠ .cancelled) :
    notePublish s (.error e) = { s with counters.publishFailures := s.counters.publishFailures + 1 } := by
  cases e with
  | cancelled => exact absurd rfl he
  | timeout | transport | status | unavailable | config => rfl

theorem Serves.fetch_goes {k : CacheKey} {answers : List (Except RemoteError (Option Bytes))}
    {result : Option (Except RemoteError (Option Bytes))} (he : c.enabled = true) (hb : c.backend.NeverCancels)
    (h : c.Serves s (.fetch k fired answers result) t) : c.FetchGoes s fired answers result t := by
  cases h with
  | fetch cancelled turn hc h =>
    cases hd : s.degraded with
    | true =>
      simp only [startFetch, he, hd, Bool.not_true, Bool.false_eq_true, if_false, if_true] at h
      cases h
      exact .skipped hd rfl
    | false =>
      simp only [startFetch, he, hd, Bool.not_true, Bool.false_eq_true, if_false] at h
      rw [resumeFetch_eq] at h
      have hnote : noteFetch s (.error .cancelled) = (s, .error .cancelled) := rfl
      obtain ⟨remote, raw, hcomes, hlast⟩ := h.comes_start (hb.1 k) hnote hc
      cases hcomes with
      | @value v hv =>
        cases v with
        | none =>
          cases hlast
          exact .miss hd hv
        | some bytes =>
          cases hlast
          exact .hit hd hv
      | failure hne hf =>
        rw [finish, noteFetch_failure hne] at hlast
        cases hlast
        exact .failure hd hf
      | cancelled hfired hn =>
        cases hlast
        exact .cancelled hd hfired hn
      | lost hloses hn =>
        cases hlast
        exact .lost hd hloses hn

theorem Serves.publish_goes {k : CacheKey} {data : Bytes} {answers : List (Except RemoteError Unit)}
    {result : Option (Except RemoteError Unit)} (he : c.enabled = true) (hb : c.backend.NeverCancels)
    (h : c.Serves s (.publish k data fired answers result) t) : c.PublishGoes s fired answers result t := by
  cases h with
  | publish cancelled turn hc h =>
    cases hd : s.degraded with
    | true =>
      simp only [startPublish, he, hd, Bool.not_true, Bool.false_eq_true, if_false, if_true] at h
      cases h
      exact .skipped hd rfl
    | false =>
      simp only [startPublish, he, hd, Bool.not_true, Bool.false_eq_true, if_false] at h
      rw [resumePublish_eq] at h
      have hnote : noted s (.error .cancelled) = (s, .error .cancelled) := rfl
      obtain ⟨remote, raw, hcomes, hlast⟩ := h.comes_start (hb.2 k data) hnote hc
      cases hcomes with
      | value hv =>
        cases hlast
        exact .stored hd hv
      | failure hne hf =>
        rw [finish, noted, notePublish_failure hne] at hlast
        cases hlast
        exact .failure hd hne hf
      | cancelled hfired hn =>
        cases hlast
        exact .cancelled hd hfired hn
      | lost hloses hn =>
        cases hlast
        exact .lost hd hloses hn

theorem FetchGoes.degraded_iff {answers : List (Except RemoteError (Option Bytes))}
    {result : Option (Except RemoteError (Option Bytes))} (h : c.FetchGoes s fired answers result t) :
    t.degraded = true ↔ c.Fails 0 answers ∨ s.degraded = true := by
  cases h with
  | skipped hd hn => simp [hd]
  | hit hd hlast | miss hd hlast => simp [hd, Fails, hlast]
  | failure hd hf => simp [hf]
  | cancelled hd hfired hn => simp [hd, hn]
  | lost hd hloses hn => simp [hd, hn]

theorem PublishGoes.degraded_eq {answers : List (Except RemoteError Unit)} {result : Option (Except RemoteError Unit)}
    (h : c.PublishGoes s fired answers result t) : t.degraded = s.degraded := by
  cases h <;> rfl

theorem failedLately_concat {log : List Event} {event : Event} :
    c.FailedLately (log ++ [event]) ↔ event.FailsFetch c ∨ event ≠ .reset ∧ c.FailedLately log := by
  constructor
  · rintro ⟨earlier, failing, later, he, hreset, hf⟩
    rcases List.eq_nil_or_concat' later with rfl | ⟨later, last, rfl⟩
    · obtain ⟨-, he⟩ := List.append_inj' he rfl
      cases he
      exact .inl hf
    · rw [← List.cons_append, ← List.append_assoc] at he
      obtain ⟨rfl, hlast⟩ := List.append_inj' he rfl
      obtain rfl : event = last := List.singleton_inj.mp hlast
      rw [List.mem_append, not_or] at hreset
      exact .inr ⟨fun he => hreset.2 (by simp [he]), earlier, failing, later, rfl, hreset.1, hf⟩
  · rintro (hf | ⟨hne, earlier, failing, later, rfl, hreset, hf⟩)
    · exact ⟨log, event, [], rfl, List.not_mem_nil, hf⟩
    · exact ⟨earlier, failing, later ++ [event], by simp, by simp [hreset, Ne.symm hne], hf⟩

/-- The induction is on the history: each event moves both sides alike. -/
theorem History.degraded_iff {remote : σ} {log : List Event} (he : c.enabled = true) (hb : c.backend.NeverCancels)
    (h : c.History remote log s) : s.degraded = true ↔ c.FailedLately log := by
  induction h with
  | nil =>
    refine ⟨nofun, ?_⟩
    rintro ⟨earlier, event, later, he, -⟩
    simp at he
  | @snoc log s t event _ hs ih =>
    rw [failedLately_concat, ← ih]
    cases event with
    | fetch k fired answers result =>
      rw [(hs.fetch_goes he hb).degraded_iff]
      simp [Event.FailsFetch]
    | publish k data fired answers result =>
      rw [(hs.publish_goes he hb).degraded_eq]
      simp [Event.FailsFetch]
    | reset =>
      cases hs
      simp [Client.reset, Event.FailsFetch]

/-- A call in one go against its token: only a token whose moment has come by the end can have fired, and no
call of the backend begins from that moment on. -/
structure Call.Heeds (call : Call σ α) (token : Option Nat) (fired : Bool) : Prop where
  fires : fired = true → ∃ moment, token = some moment ∧ moment ≤ call.elapsed
  calls : ∀ begun ∈ call.calls, ∀ moment, token = some moment → begun < moment

/-- A call in one go, whose attempts went in some way. -/
def Run.finished (r : Run σ α) (note : Note σ α) (s : State σ) : Call σ α :=
  let last := finish note { s with remote := r.remote } r.result
  ⟨last.1, last.2, r.calls, r.elapsed⟩

theorem fetch_skipped (he : c.enabled = true) (hd : s.degraded = true) (token : Option Nat)
    (draws : Nat → Spread) (k : CacheKey) :
    c.fetch token draws k s = ⟨skipped s, some (.ok none), [], 0⟩ := by simp [fetch, he, hd]

theorem fetch_tried (he : c.enabled = true) (hd : s.degraded = false) (token : Option Nat)
    (draws : Nat → Spread) (k : CacheKey) :
    c.fetch token draws k s = (c.run token draws (c.backend.fetch k) s.remote).finished noteFetch s := by
  simp only [fetch, he, hd, Bool.not_true, Bool.false_eq_true, if_false, Run.finished, finish]
  cases (c.run token draws (c.backend.fetch k) s.remote).result <;> rfl

theorem publish_skipped (he : c.enabled = true) (hd : s.degraded = true) (token : Option Nat)
    (draws : Nat → Spread) (k : CacheKey)
    (data : Bytes) : c.publish token draws k data s = ⟨skipped s, some (.error c.givenUp), [], 0⟩ := by
  simp [publish, he, hd]

theorem publish_tried (he : c.enabled = true) (hd : s.degraded = false) (token : Option Nat)
    (draws : Nat → Spread) (k : CacheKey)
    (data : Bytes) :
    c.publish token draws k data s = (c.run token draws (c.backend.publish k data) s.remote).finished noted s := by
  simp only [publish, he, hd, Bool.not_true, Bool.false_eq_true, if_false, Run.finished, finish]
  cases (c.run token draws (c.backend.publish k data) s.remote).result <;> rfl

theorem serves_fetch (he : c.enabled = true) (token : Option Nat) (draws : Nat → Spread) (k : CacheKey)
    (s : State σ) :
    ∃ fired answers, c.Serves s (.fetch k fired answers (c.fetch token draws k s).result)
      (c.fetch token draws k s).state ∧
      (c.fetch token draws k s).Heeds token fired := by
  cases hd : s.degraded with
  | true =>
    rw [fetch_skipped he hd]
    refine ⟨false, [], .fetch false (.plain 0) nofun ?_, ⟨nofun, nofun⟩⟩
    simp only [startFetch, he, hd, Bool.not_true, Bool.false_eq_true, if_false, if_true]
    exact .over
  | false =>
    have hnote : noteFetch s (.error .cancelled) = (s, .error .cancelled) := rfl
    obtain ⟨fired, cancelled, answers, hc, hends, hfires, hcalls⟩ :=
      c.ends_run draws (c.backend.fetch k) token s hnote
    rw [fetch_tried he hd]
    refine ⟨fired, answers, .fetch cancelled (.plain 0) hc ?_, hfires, hcalls⟩
    simp only [resumeFetch_eq, startFetch, he, hd, Bool.not_true, Bool.false_eq_true, if_false]
    exact hends

/-- A publication in one go is one that takes its steps at certain moments. -/
theorem serves_publish (he : c.enabled = true) (token : Option Nat) (draws : Nat → Spread) (k : CacheKey)
    (data : Bytes) (s : State σ) :
    ∃ fired answers,
      c.Serves s (.publish k data fired answers (c.publish token draws k data s).result)
        (c.publish token draws k data s).state ∧
      (c.publish token draws k data s).Heeds token fired := by
  cases hd : s.degraded with
  | true =>
    rw [publish_skipped he hd]
    refine ⟨false, [], .publish false (.plain 0) nofun ?_, ⟨nofun, nofun⟩⟩
    simp only [startPublish, he, hd, Bool.not_true, Bool.false_eq_true, if_false, if_true]
    exact .over
  | false =>
    have hnote : noted s (.error .cancelled) = (s, .error .cancelled) := rfl
    obtain ⟨fired, cancelled, answers, hc, hends, hfires, hcalls⟩ :=
      c.ends_run draws (c.backend.publish k data) token s hnote
    rw [publish_tried he hd]
    refine ⟨fired, answers, .publish cancelled (.plain 0) hc ?_, hfires, hcalls⟩
    simp only [resumePublish_eq, startPublish, he, hd, Bool.not_true, Bool.false_eq_true, if_false]
    exact hends

/-- What holds of a client after a history: when it has given the remote up, and how each call can go. -/
structure FailsSoftly (c : Client σ) (log : List Event) (s : State σ) : Prop where
  degraded_iff : s.degraded = true ↔ c.FailedLately log
  fetch_goes : ∀ {k fired answers result t}, c.Serves s (.fetch k fired answers result) t →
    c.FetchGoes s fired answers result t
  publish_goes : ∀ {k data fired answers result t}, c.Serves s (.publish k data fired answers result) t →
    c.PublishGoes s fired answers result t
  reset : ∀ {t}, c.Serves s .reset t → t = { s with degraded := false }
  fetch_once : ∀ token draws k, ∃ fired answers,
    c.Serves s (.fetch k fired answers (c.fetch token draws k s).result) (c.fetch token draws k s).state ∧
      (c.fetch token draws k s).Heeds token fired
  publish_once : ∀ token draws k data, ∃ fired answers,
    c.Serves s (.publish k data fired answers (c.publish token draws k data s).result)
      (c.publish token draws k data s).state ∧
      (c.publish token draws k data s).Heeds token fired
  fetch_skips : s.degraded = true → ∀ token draws k, (c.fetch token draws k s).calls = []
  publish_skips : s.degraded = true → ∀ token draws k data, (c.publish token draws k data s).calls = []

/-- Whatever the backend answers, short of cancelling, and whenever tokens fire: the client gives the remote
up just for a fetch that failed since the last beginning of a build, then asks no more, and counts each call
once unless it is cancelled or lost. -/
theorem fail_soft {remote : σ} {log : List Event} (he : c.enabled = true) (hb : c.backend.NeverCancels)
    (h : c.History remote log s) : c.FailsSoftly log s where
  degraded_iff := h.degraded_iff he hb
  fetch_goes hs := hs.fetch_goes he hb
  publish_goes hs := hs.publish_goes he hb
  reset hs := by
    cases hs
    rfl
  fetch_once token draws k := serves_fetch he token draws k s
  publish_once token draws k data := serves_publish he token draws k data s
  fetch_skips hd token draws k := by rw [fetch_skipped he hd]
  publish_skips hd token draws k data := by rw [publish_skipped he hd]

def refusing : Client Unit where
  backend.name := "refusing"
  backend.fetch _ _ := ((), ⟨.error (.status "refusing" 403), some 0⟩)
  backend.publish _ _ _ := ((), ⟨.ok (), some 0⟩)
  policy := .noRetry
  timeout := 1
  enabled := true
  timer := .millisecond

def blankKey : CacheKey := ⟨⟨List.replicate 32 0, rfl⟩⟩

theorem fail_soft_refusing : refusing.enabled = true ∧ refusing.backend.NeverCancels ∧
    ∃ s, refusing.History () [.fetch blankKey false [.error (.status "refusing" 403)] (some (.ok none))] s ∧
      s.degraded = true ∧ (refusing.publish none (fun _ => .even) blankKey [] s).calls = [] := by
  have hnever : refusing.backend.NeverCancels := ⟨nofun, nofun⟩
  have h : refusing.History () [.fetch blankKey false [.error (.status "refusing" 403)] (some (.ok none))]
      ⟨(), true, ⟨0, 0, 1, 0, 0, 0⟩⟩ := .snoc .nil (.fetch false (.plain 0) nofun (.answered (.plain 0) .over))
  have hsoft := fail_soft rfl hnever h
  have hd := hsoft.degraded_iff.mpr ⟨[], _, [], rfl, List.not_mem_nil, _, rfl, nofun⟩
  exact ⟨rfl, hnever, _, h, hd, hsoft.publish_skips hd none _ blankKey []⟩

/-- A remote that is down, and retries whose second delay would be negative. -/
def hopeless : Client Unit where
  backend.name := "down"
  backend.fetch _ _ := ((), ⟨.error (.transport "down" "connection reset"), some 0⟩)
  backend.publish _ _ _ := ((), ⟨.ok (), some 0⟩)
  policy := ⟨3, 1000000, .finite true 0x10000000000000 (-51), 5000000, false⟩
  timeout := 500000000
  enabled := true
  timer := .millisecond

/-- A fetch that needs a retry without a delay comes to nothing, and nothing counts it. -/
theorem no_answer_without_delay : ∃ c : Client Unit, c.enabled = true ∧ c.backend.NeverCancels ∧
    ∃ k, (c.fetch none (fun _ => .even) k (.initial ())).result = none ∧
      (c.fetch none (fun _ => .even) k (.initial ())).state = .initial () :=
  ⟨hopeless, rfl, ⟨nofun, nofun⟩, blankKey, by decide +kernel, by decide +kernel⟩

end Client
end BuildCache
