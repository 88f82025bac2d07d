import BuildCache.Remote.Wait

/-! # Calls of the remote client: how many steps they take, and what can come of them -/
namespace BuildCache

namespace RetryPolicy

/-- Calls can be lost: a retry is allowed that has no delay if it is spread in some way, or there are more
attempts than are counted. -/
def Loses (p : RetryPolicy) : Prop :=
  (∃ retry < p.maxRetries, ∃ spread, p.delay? spread retry = none) ∨ attemptLimit ≤ p.maxRetries + 1

end RetryPolicy

namespace Client

variable {σ α : Type}

/-- The most steps of a call from a wait on. -/
def Wait.steps (retries : Nat) : Wait α → Nat
  | answer failed _ _ => 2 * (retries - failed) + 1
  | delay failed _ => 2 * (retries - failed) + 2

theorem begin_eq (c : Client σ) (call : σ → σ × Reply α) (failed now : Nat) (remote : σ) :
    ∃ result ends, c.begin call failed now remote
      = ((call remote).1, .waiting (.answer failed result ends)) ∧
      (result = (call remote).2.result ∨ result = .error c.timedOut) := by
  simp only [begin, ask]
  split
  · exact ⟨_, _, rfl, .inl rfl⟩
  · exact ⟨_, _, rfl, .inr rfl⟩

theorem follow_waiting {c : Client σ} {failed : Nat} {turn : Turn} {result : Except RemoteError α} {w : Wait α}
    (h : c.follow failed turn result = .waiting w) :
    failed < c.policy.maxRetries ∧ ∃ ends, w = .delay (failed + 1) ends := by
  cases result with
  | ok value => cases h
  | error e =>
    simp only [follow] at h
    split at h
    · cases h
    · split at h
      · split at h <;> cases h
      · next hlt =>
        split at h
        · cases h
          exact ⟨Nat.lt_of_not_le hlt, _, rfl⟩
        · cases h

theorem resume_steps {c : Client σ} {call : σ → σ × Reply α} {w w' : Wait α} {turn : Turn} {remote : σ}
    (h : (c.resume call w turn remote).2 = .waiting w') :
    w'.steps c.policy.maxRetries < w.steps c.policy.maxRetries := by
  cases w with
  | answer failed result ends =>
    obtain ⟨hlt, ends', rfl⟩ := follow_waiting h
    simp only [Wait.steps]
    omega
  | delay failed ends =>
    obtain ⟨result, ends', he, -⟩ := c.begin_eq call failed turn.moment remote
    rw [resume, he] at h
    cases h
    simp only [Wait.steps]
    omega

theorem start_steps {c : Client σ} {cancelled : Bool} {call : σ → σ × Reply α} {turn : Turn}
    {s : State σ} {w : Wait α} (h : (c.start cancelled call turn s).2 = .waiting w) :
    w.steps c.policy.maxRetries = 2 * c.policy.maxRetries + 1 := by
  simp only [start] at h
  split at h
  · cases h
  · obtain ⟨result, ends, he, -⟩ := c.begin_eq call 0 turn.moment s.remote
    rw [he] at h
    cases h
    rfl

theorem goOn_steps {c : Client σ} {cancelled : Bool} {call : σ → σ × Reply α} {w w' : Wait α}
    {turn : Turn} {s : State σ} (h : (c.goOn cancelled call w turn s).2 = .waiting w') :
    w'.steps c.policy.maxRetries < w.steps c.policy.maxRetries := by
  simp only [goOn] at h
  split at h
  · cases h
  · exact resume_steps h

theorem startFetch_steps {c : Client σ} {cancelled : Bool} {k : CacheKey} {turn : Turn} {s : State σ}
    {w : Wait (Option Bytes)} (h : (c.startFetch cancelled k turn s).2 = .waiting w) :
    w.steps c.policy.maxRetries = 2 * c.policy.maxRetries + 1 := by
  simp only [startFetch] at h
  split at h
  · cases h
  · split at h
    · cases h
    · exact start_steps h

theorem resumeFetch_steps {c : Client σ} {cancelled : Bool} {k : CacheKey} {turn : Turn} {s : State σ}
    {w w' : Wait (Option Bytes)} (h : (c.resumeFetch cancelled k w turn s).2 = .waiting w') :
    w'.steps c.policy.maxRetries < w.steps c.policy.maxRetries := by
  simp only [resumeFetch] at h
  split at h
  · cases h
  · exact goOn_steps h

theorem startPublish_steps {c : Client σ} {cancelled : Bool} {k : CacheKey} {data : Bytes}
    {turn : Turn} {s : State σ}
    {w : Wait Unit} (h : (c.startPublish cancelled k data turn s).2 = .waiting w) :
    w.steps c.policy.maxRetries = 2 * c.policy.maxRetries + 1 := by
  simp only [startPublish] at h
  split at h
  · cases h
  · split at h
    · cases h
    · exact start_steps h

theorem resumePublish_steps {c : Client σ} {cancelled : Bool} {k : CacheKey} {data : Bytes}
    {turn : Turn} {s : State σ}
    {w w' : Wait Unit} (h : (c.resumePublish cancelled k data w turn s).2 = .waiting w') :
    w'.steps c.policy.maxRetries < w.steps c.policy.maxRetries := by
  simp only [resumePublish] at h
  split at h
  · cases h
  · exact goOn_steps h

/-- No more attempts failed than may be retried, and the answer that is waited for is of some kind. -/
def Wait.Holds (c : Client σ) (P : Except RemoteError α → Prop) : Wait α → Prop
  | answer failed result _ => failed ≤ c.policy.maxRetries ∧ P result
  | delay failed _ => failed ≤ c.policy.maxRetries

/-- What can come of a call if all answers are of some kind, where `ended` tells of its end. -/
def Progress.Holds (c : Client σ) (P ended : Except RemoteError α → Prop) : Progress α → Prop
  | waiting w => w.Holds c P
  | .over result => ended result
  | lost => c.policy.Loses

/-- What attempts end with: an answer, or the failure to get one. -/
def Gives (P : Except RemoteError α → Prop) (cancelled : Bool) (result : Except RemoteError α) : Prop :=
  P result ∨ (∃ e, result = .error e ∧ e ≠ .cancelled) ∨ (result = .error .cancelled ∧ cancelled = true)

theorem Progress.Holds.mono {c : Client σ} {P ended ended' : Except RemoteError α → Prop} {p : Progress α}
    (h : p.Holds c P ended) (hended : ∀ result, ended result → ended' result) : p.Holds c P ended' := by
  cases p with
  | waiting w => exact h
  | «over» result => exact hended result h
  | lost => exact h

theorem begin_holds {c : Client σ} {call : σ → σ × Reply α} {P : Except RemoteError α → Prop} {failed : Nat}
    {remote : σ} (hle : failed ≤ c.policy.maxRetries) (hcall : P (call remote).2.result)
    (htime : P (.error c.timedOut)) (now : Nat) : (c.begin call failed now remote).2.Holds c P fun _ => False := by
  obtain ⟨result, ends, he, hr⟩ := c.begin_eq call failed now remote
  rw [he]
  rcases hr with rfl | rfl
  · exact ⟨hle, hcall⟩
  · exact ⟨hle, htime⟩

theorem exhausted?_eq_none {c : Client σ} {e : RemoteError} {attempts : Nat} :
    c.exhausted? e attempts = none ↔ RetryPolicy.attemptLimit ≤ attempts := by
  simp [exhausted?]

theorem ne_cancelled_of_exhausted? {c : Client σ} {e failure : RemoteError} {attempts : Nat}
    (h : c.exhausted? e attempts = some failure) : failure ≠ .cancelled := by
  simp only [exhausted?, Option.ite_none_right_eq_some, Option.some.injEq] at h
  rw [← h.2]
  nofun

theorem lt_of_exhausted? {c : Client σ} {e failure : RemoteError} {attempts : Nat}
    (h : c.exhausted? e attempts = some failure) : attempts < RetryPolicy.attemptLimit := by
  simp only [exhausted?, Option.ite_none_right_eq_some] at h
  exact h.1

theorem follow_holds {c : Client σ} {P : Except RemoteError α → Prop} {failed : Nat} {turn : Turn}
    {result : Except RemoteError α} (h : P result) (hle : failed ≤ c.policy.maxRetries) (cancelled : Bool) :
    (c.follow failed turn result).Holds c P (Gives P cancelled) := by
  cases result with
  | ok value => exact .inl h
  | error e =>
    simp only [follow]
    split
    · exact .inl h
    · split
      · next hmax =>
        split
        · next failure hfailure => exact .inr (.inl ⟨_, rfl, ne_cancelled_of_exhausted? hfailure⟩)
        · next hnone => exact .inr (Nat.le_antisymm hle hmax ▸ exhausted?_eq_none.mp hnone)
      · next hlt =>
        split
        · exact Nat.lt_of_not_le hlt
        · next hd => exact .inl ⟨failed, Nat.lt_of_not_le hlt, turn.spread, hd⟩

theorem resume_holds {c : Client σ} {call : σ → σ × Reply α}
    {P : Except RemoteError α → Prop} {w : Wait α}
    {turn : Turn} {remote : σ} (hw : w.Holds c P) (hcall : P (call remote).2.result)
    (htime : P (.error c.timedOut))
    (cancelled : Bool) : (c.resume call w turn remote).2.Holds c P (Gives P cancelled) := by
  cases w with
  | answer failed result ends => exact follow_holds hw.2 hw.1 cancelled
  | delay failed ends => exact (begin_holds hw hcall htime _).mono fun _ => False.elim

theorem start_holds {c : Client σ} {cancelled : Bool} {call : σ → σ × Reply α}
    {P : Except RemoteError α → Prop}
    {turn : Turn} {s : State σ} (hcall : P (call s.remote).2.result) (htime : P (.error c.timedOut)) :
    (c.start cancelled call turn s).2.Holds c P fun result => result = .error .cancelled ∧
      cancelled = true := by
  simp only [start]
  split
  · next hc => exact ⟨rfl, ((Bool.and_eq_true _ _).mp hc).1⟩
  · exact (begin_holds (Nat.zero_le _) hcall htime _).mono fun _ => False.elim

theorem goOn_holds {c : Client σ} {cancelled : Bool} {call : σ → σ × Reply α}
    {P : Except RemoteError α → Prop}
    {w : Wait α} {turn : Turn} {s : State σ} (hw : w.Holds c P) (hcall : P (call s.remote).2.result)
    (htime : P (.error c.timedOut)) :
    (c.goOn cancelled call w turn s).2.Holds c P (Gives P cancelled) := by
  simp only [goOn]
  split
  · next hc => exact .inr (.inr ⟨rfl, ((Bool.and_eq_true _ _).mp hc).1⟩)
  · exact resume_holds hw hcall htime cancelled

/-- How a fetch ends: with bytes that the remote gave, with a miss, or cancelled. -/
def Fetched (P : Except RemoteError (Option Bytes) → Prop) (cancelled : Bool) :
    Except RemoteError (Option Bytes) → Prop
  | .ok (some raw) => P (.ok (some raw))
  | .ok none => True
  | .error e => e = .cancelled ∧ (cancelled = true ∨ P (.error .cancelled))

theorem noteFetch_fetched {P : Except RemoteError (Option Bytes) → Prop} {cancelled : Bool} (s : State σ)
    {result : Except RemoteError (Option Bytes)} (h : Gives P cancelled result) :
    Fetched P cancelled (noteFetch s result).2 := by
  rcases result with e | _ | raw
  · cases e with
    | cancelled =>
      refine ⟨rfl, ?_⟩
      rcases h with h | ⟨e, he, hne⟩ | ⟨-, hc⟩
      · exact .inr h
      · cases he
        exact absurd rfl hne
      · exact .inl hc
    | timeout | transport | status | unavailable | config => trivial
  · trivial
  · rcases h with h | ⟨e, he, -⟩ | ⟨he, -⟩
    · exact h
    · cases he
    · cases he

theorem startFetch_holds {c : Client σ} {cancelled : Bool} {k : CacheKey}
    {P : Except RemoteError (Option Bytes) → Prop}
    {turn : Turn} {s : State σ} (hcall : P (c.backend.fetch k s.remote).2.result)
    (htime : P (.error c.timedOut)) :
    (c.startFetch cancelled k turn s).2.Holds c P (Fetched P cancelled) := by
  simp only [startFetch]
  split
  · trivial
  · split
    · trivial
    · apply (start_holds hcall htime).mono
      intro result h
      rw [h.1]
      exact ⟨rfl, .inl h.2⟩

theorem resumeFetch_holds {c : Client σ} {cancelled : Bool} {k : CacheKey}
    {P : Except RemoteError (Option Bytes) → Prop} {w : Wait (Option Bytes)} {turn : Turn} {s : State σ}
    (hw : w.Holds c P) (hcall : P (c.backend.fetch k s.remote).2.result) (htime : P (.error c.timedOut)) :
    (c.resumeFetch cancelled k w turn s).2.Holds c P (Fetched P cancelled) := by
  have h : (c.goOn cancelled (c.backend.fetch k) w turn s).2.Holds c P (Gives P cancelled) :=
    goOn_holds hw hcall htime
  simp only [resumeFetch]
  revert h
  rcases c.goOn cancelled (c.backend.fetch k) w turn s with ⟨t, _ | result | _⟩
  · exact id
  · exact fun h => noteFetch_fetched t h
  · exact id

theorem startFetch_ne_lost (c : Client σ) (cancelled : Bool) (k : CacheKey) (turn : Turn) (s : State σ) :
    (c.startFetch cancelled k turn s).2 ≠ .lost ∧
      ∀ raw, (c.startFetch cancelled k turn s).2 ≠ .over (.ok (some raw)) := by
  simp only [startFetch, start]
  split
  · exact ⟨nofun, nofun⟩
  · split
    · exact ⟨nofun, nofun⟩
    · split
      · exact ⟨nofun, nofun⟩
      · obtain ⟨result, ends, he, -⟩ := c.begin_eq (c.backend.fetch k) 0 turn.moment s.remote
        rw [he]
        exact ⟨nofun, nofun⟩

theorem answer_of_resume {c : Client σ} {call : σ → σ × Reply α} {w : Wait α} {turn : Turn} {remote : σ} {value : α}
    (h : (c.resume call w turn remote).2 = .over (.ok value)) :
    ∃ failed ends, w = .answer failed (.ok value) ends := by
  cases w with
  | delay failed ends =>
    obtain ⟨result, ends', he, -⟩ := c.begin_eq call failed turn.moment remote
    rw [resume, he] at h
    cases h
  | answer failed result ends =>
    cases result with
    | ok value' =>
      cases h
      exact ⟨failed, ends, rfl⟩
    | error e =>
      simp only [resume, follow] at h
      split at h
      · cases h
      · split at h <;> split at h <;> cases h

theorem noteFetch_eq_some {s : State σ} {result : Except RemoteError (Option Bytes)} {raw : Bytes}
    (h : (noteFetch s result).2 = .ok (some raw)) : result = .ok (some raw) := by
  rcases result with e | _ | bytes
  · cases e <;> cases h
  · cases h
  · cases h
    rfl

theorem answer_of_resumeFetch {c : Client σ} {cancelled : Bool} {k : CacheKey} {w : Wait (Option Bytes)} {turn : Turn}
    {s : State σ} {raw : Bytes} (h : (c.resumeFetch cancelled k w turn s).2 = .over (.ok (some raw))) :
    ∃ failed ends, w = .answer failed (.ok (some raw)) ends := by
  simp only [resumeFetch, goOn] at h
  by_cases hc : (cancelled && turn.tokenFirst) = true
  · simp [hc, noteFetch] at h
  · rw [if_neg hc] at h
    cases hp : (c.resume (c.backend.fetch k) w turn s.remote).2 with
    | «over» result =>
      simp only [hp] at h
      exact answer_of_resume (hp.trans (congrArg _ (noteFetch_eq_some (Progress.over.inj h))))
    | waiting | lost => simp [hp] at h

theorem begin_remote (c : Client σ) (call : σ → σ × Reply α) (failed now : Nat) (remote : σ) :
    (c.begin call failed now remote).1 = (call remote).1 := by
  obtain ⟨result, ends, he, -⟩ := c.begin_eq call failed now remote
  rw [he]

/-- A step of a call leaves the remote as it is, or as one call of the backend leaves it. -/
theorem goOn_remote (c : Client σ) (cancelled : Bool) (call : σ → σ × Reply α) (w : Wait α) (turn : Turn)
    (s : State σ) :
    (c.goOn cancelled call w turn s).1.remote = s.remote ∨
      (c.goOn cancelled call w turn s).1.remote = (call s.remote).1 := by
  simp only [goOn]
  split
  · exact .inl rfl
  · cases w with
    | answer failed result ends => exact .inl rfl
    | delay failed ends => exact .inr (c.begin_remote call failed turn.moment s.remote)

theorem start_remote (c : Client σ) (cancelled : Bool) (call : σ → σ × Reply α) (turn : Turn)
    (s : State σ) :
    (c.start cancelled call turn s).1.remote = s.remote ∨
      (c.start cancelled call turn s).1.remote = (call s.remote).1 := by
  simp only [start]
  split
  · exact .inl rfl
  · exact .inr (c.begin_remote call 0 turn.moment s.remote)

theorem noteFetch_remote (s : State σ) (result : Except RemoteError (Option Bytes)) :
    (noteFetch s result).1.remote = s.remote := by
  rcases result with e | _ | raw
  · cases e <;> rfl
  · rfl
  · rfl

theorem notePublish_remote (s : State σ) (result : Except RemoteError Unit) :
    (notePublish s result).remote = s.remote := by
  rcases result with e | _
  · cases e <;> rfl
  · rfl

theorem startFetch_remote (c : Client σ) (cancelled : Bool) (k : CacheKey) (turn : Turn) (s : State σ) :
    (c.startFetch cancelled k turn s).1.remote = s.remote ∨
      (c.startFetch cancelled k turn s).1.remote = (c.backend.fetch k s.remote).1 := by
  simp only [startFetch]
  split
  · exact .inl rfl
  · split
    · exact .inl rfl
    · exact c.start_remote cancelled _ turn s

theorem resumeFetch_remote (c : Client σ) (cancelled : Bool) (k : CacheKey)
    (w : Wait (Option Bytes)) (turn : Turn)
    (s : State σ) : (c.resumeFetch cancelled k w turn s).1.remote = s.remote ∨
      (c.resumeFetch cancelled k w turn s).1.remote = (c.backend.fetch k s.remote).1 := by
  have h := c.goOn_remote cancelled (c.backend.fetch k) w turn s
  simp only [resumeFetch]
  revert h
  rcases c.goOn cancelled (c.backend.fetch k) w turn s with ⟨t, _ | result | _⟩
  · exact id
  · exact fun h => h.imp (noteFetch_remote t result).trans (noteFetch_remote t result).trans
  · exact id

theorem startPublish_remote (c : Client σ) (cancelled : Bool) (k : CacheKey) (data : Bytes) (turn : Turn)
    (s : State σ) :
    (c.startPublish cancelled k data turn s).1.remote = s.remote ∨
      (c.startPublish cancelled k data turn s).1.remote = (c.backend.publish k data s.remote).1 := by
  simp only [startPublish]
  split
  · exact .inl rfl
  · split
    · exact .inl rfl
    · exact c.start_remote cancelled _ turn s

theorem remote_resumePublish (c : Client σ) (cancelled : Bool) (k : CacheKey) (data : Bytes) (w : Wait Unit)
    (turn : Turn) (s : State σ) : (c.resumePublish cancelled k data w turn s).1.remote
      = (c.goOn cancelled (c.backend.publish k data) w turn s).1.remote := by
  simp only [resumePublish]
  rcases c.goOn cancelled (c.backend.publish k data) w turn s with ⟨t, _ | result | _⟩
  · rfl
  · exact notePublish_remote t result
  · rfl

theorem resumePublish_remote (c : Client σ) (cancelled : Bool) (k : CacheKey) (data : Bytes)
    (w : Wait Unit) (turn : Turn)
    (s : State σ) : (c.resumePublish cancelled k data w turn s).1.remote = s.remote ∨
      (c.resumePublish cancelled k data w turn s).1.remote = (c.backend.publish k data s.remote).1 := by
  rw [remote_resumePublish]
  exact c.goOn_remote cancelled (c.backend.publish k data) w turn s

end Client
end BuildCache
