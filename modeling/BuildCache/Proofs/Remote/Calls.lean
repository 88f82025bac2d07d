import BuildCache.Proofs.Remote.Wait

/-! # Calls of the remote client from beginning to end, with the answers that they get

A wait may end at any moment, since the lengths of delays and the times of answers are left open. What a
call comes to depends on the answers alone, and on whether its token fires before the next one. -/
namespace BuildCache.Client

variable {σ α : Type}

/-- How a call counts what its attempts came to, and what it makes of that. -/
abbrev Note (σ α : Type) := State σ → Except RemoteError α → State σ × Except RemoteError α

/-- A call goes on from where a step left it until it is over, with the answers that it gets on the way.
If it is `fired`, its token may fire during any wait, and then it gets no further answer. The result is
missing where the call is lost. -/
inductive Ends (resume : Bool → Wait α → Turn → State σ → State σ × Progress α) (fired : Bool) :
    State σ × Progress α → List (Except RemoteError α) → State σ × Option (Except RemoteError α) → Prop
  | over {s : State σ} {result : Except RemoteError α} : Ends resume fired (s, .over result) [] (s, some result)
  | lost {s : State σ} : Ends resume fired (s, .lost) [] (s, none)
  | answered {s : State σ} {failed ends : Nat} {result : Except RemoteError α}
      {answers : List (Except RemoteError α)} {last : State σ × Option (Except RemoteError α)} (turn : Turn)
      (rest : Ends resume fired (resume false (.answer failed result ends) turn s) answers last) :
      Ends resume fired (s, .waiting (.answer failed result ends)) (result :: answers) last
  | delayed {s : State σ} {failed ends : Nat} {answers : List (Except RemoteError α)}
      {last : State σ × Option (Except RemoteError α)} (turn : Turn)
      (rest : Ends resume fired (resume false (.delay failed ends) turn s) answers last) :
      Ends resume fired (s, .waiting (.delay failed ends)) answers last
  | cancelled {s : State σ} {w : Wait α} {answers : List (Except RemoteError α)}
      {last : State σ × Option (Except RemoteError α)} (turn : Turn) (hfirst : turn.tokenFirst = true)
      (hf : fired = true) (rest : Ends resume fired (resume true w turn s) answers last) :
      Ends resume fired (s, .waiting w) answers last

/-- The end of a call whose attempts came to something, or to nothing where it was lost. -/
def finish (note : Note σ α) (s : State σ) : Option (Except RemoteError α) → State σ × Option (Except RemoteError α)
  | some result => ((note s result).1, some (note s result).2)
  | none => (s, none)

/-- Counts what the attempts came to as soon as they are over. -/
def noting (note : Note σ α) : State σ × Progress α → State σ × Progress α
  | (s, .over result) => ((note s result).1, .over (note s result).2)
  | (s, .waiting w) => (s, .waiting w)
  | (s, .lost) => (s, .lost)

def resuming (c : Client σ) (call : σ → σ × Reply α) (note : Note σ α) (cancelled : Bool) (w : Wait α)
    (turn : Turn) (s : State σ) : State σ × Progress α := noting note (c.goOn cancelled call w turn s)

def noted (s : State σ) (result : Except RemoteError Unit) : State σ × Except RemoteError Unit :=
  (notePublish s result, result)

theorem resumeFetch_eq (c : Client σ) (k : CacheKey) :
    (fun cancelled => c.resumeFetch cancelled k) = c.resuming (c.backend.fetch k) noteFetch := by
  funext cancelled w turn s
  simp only [resumeFetch, resuming, noting]
  rcases c.goOn cancelled (c.backend.fetch k) w turn s with ⟨t, _ | result | _⟩ <;> rfl

theorem resumePublish_eq (c : Client σ) (k : CacheKey) (data : Bytes) :
    (fun cancelled => c.resumePublish cancelled k data) = c.resuming (c.backend.publish k data) noted := by
  funext cancelled w turn s
  simp only [resumePublish, resuming, noting, noted]
  rcases c.goOn cancelled (c.backend.publish k data) w turn s with ⟨t, _ | result | _⟩ <;> rfl

/-- After some failed attempts, the last of these answers is an error for good, or one too many, if so many are
counted. -/
def Fails (c : Client σ) (failed : Nat) (answers : List (Except RemoteError α)) : Prop :=
  ∃ e, answers.getLast? = some (.error e) ∧ (e.isTransient = true →
    failed + answers.length = c.policy.maxRetries + 1 ∧ failed + answers.length < RetryPolicy.attemptLimit)

/-- What attempts come to by their answers: to a value, to a failure, or to neither where the token fires
or the call is lost. -/
inductive Comes (c : Client σ) (fired : Bool) (failed : Nat) (answers : List (Except RemoteError α)) :
    Option (Except RemoteError α) → Prop
  | value {v : α} (hlast : answers.getLast? = some (.ok v)) : Comes c fired failed answers (some (.ok v))
  | failure {e : RemoteError} (he : e ≠ .cancelled) (hf : c.Fails failed answers) :
      Comes c fired failed answers (some (.error e))
  | cancelled (hfired : fired = true) (hn : ¬c.Fails failed answers) :
      Comes c fired failed answers (some (.error .cancelled))
  | lost (hd : c.policy.Loses) (hn : ¬c.Fails failed answers) : Comes c fired failed answers none

variable {c : Client σ} {fired : Bool} {failed : Nat} {answers : List (Except RemoteError α)}

@[simp] theorem not_fails_nil : ¬c.Fails failed ([] : List (Except RemoteError α)) := by
  rintro ⟨e, he, -⟩
  cases he

theorem fails_singleton {e : RemoteError} :
    c.Fails failed [(.error e : Except RemoteError α)] ↔
      (e.isTransient = true → failed = c.policy.maxRetries ∧ failed + 1 < RetryPolicy.attemptLimit) := by
  simp [Fails]

theorem fails_cons {e : RemoteError} (ht : e.isTransient = true) (hlt : failed < c.policy.maxRetries) :
    c.Fails failed ((.error e : Except RemoteError α) :: answers) ↔ c.Fails (failed + 1) answers := by
  cases answers with
  | nil =>
    rw [fails_singleton]
    simp only [ht, true_implies, not_fails_nil, iff_false]
    omega
  | cons a rest => simp [Fails, Nat.add_assoc, Nat.add_comm 1]

theorem Comes.cons {raw : Option (Except RemoteError α)} (h : c.Comes fired (failed + 1) answers raw)
    {e : RemoteError} (ht : e.isTransient = true) (hlt : failed < c.policy.maxRetries) :
    c.Comes fired failed (.error e :: answers) raw := by
  cases h with
  | value hlast => exact .value (by rw [List.getLast?_cons, hlast]; rfl)
  | failure he hf => exact .failure he ((fails_cons ht hlt).mpr hf)
  | cancelled hfired hn => exact .cancelled hfired fun hf => hn ((fails_cons ht hlt).mp hf)
  | lost hd hn => exact .lost hd fun hf => hn ((fails_cons ht hlt).mp hf)

section

variable {e : RemoteError} {turn : Turn}

theorem ne_cancelled (ht : e.isTransient = true) : (.error e : Except RemoteError α) ≠ .error .cancelled := by
  rintro ⟨⟩
  cases ht

theorem follow_permanent (ht : e.isTransient = false) :
    c.follow failed turn (.error e : Except RemoteError α) = .over (.error e) := by simp [follow, ht]

theorem follow_exhausted (ht : e.isTransient = true) (hmax : c.policy.maxRetries ≤ failed) :
    c.follow failed turn (.error e : Except RemoteError α)
      = ((c.exhausted? e (failed + 1)).map .error).elim .lost .over := by
  cases he : c.exhausted? e (failed + 1) <;> simp [follow, ht, hmax, he]

theorem follow_lost (ht : e.isTransient = true) (hlt : failed < c.policy.maxRetries)
    (hd : c.policy.delay? turn.spread failed = none) :
    c.follow failed turn (.error e : Except RemoteError α) = .lost := by
  simp [follow, ht, hd, Nat.not_le.mpr hlt]

theorem follow_delay (ht : e.isTransient = true) (hlt : failed < c.policy.maxRetries) {delay : Duration}
    (hd : c.policy.delay? turn.spread failed = some delay) :
    c.follow failed turn (.error e : Except RemoteError α)
      = .waiting (.delay (failed + 1) (c.timer.ends turn.moment delay)) := by
  simp [follow, ht, hd, Nat.not_le.mpr hlt]

end

section

variable {call : σ → σ × Reply α} {note : Note σ α} {s : State σ} {last : State σ × Option (Except RemoteError α)}

theorem resuming_cancelled (w : Wait α) {turn : Turn} (hfirst : turn.tokenFirst = true) :
    c.resuming call note true w turn s
      = ((note s (.error .cancelled)).1, .over (note s (.error .cancelled)).2) := by
  simp [resuming, goOn, noting, hfirst]

theorem resuming_answer (result : Except RemoteError α) (ends : Nat) (turn : Turn) :
    c.resuming call note false (.answer failed result ends) turn s = noting note (s, c.follow failed turn result) :=
  rfl

theorem resuming_delay (ends : Nat) (turn : Turn) : c.resuming call note false (.delay failed ends) turn s
    = ({ s with remote := (c.begin call failed turn.moment s.remote).1 },
      (c.begin call failed turn.moment s.remote).2) := rfl

/-- An answer is followed by another attempt, or it is the last one that comes. -/
theorem follow_comes (fired : Bool) (hle : failed ≤ c.policy.maxRetries) {result : Except RemoteError α}
    (hresult : result ≠ .error .cancelled) (turn : Turn) :
    (∃ e ends, result = .error e ∧ e.isTransient = true ∧ failed < c.policy.maxRetries ∧
      c.follow failed turn result = .waiting (.delay (failed + 1) ends)) ∨
    ∃ raw, c.follow failed turn result = raw.elim .lost .over ∧ c.Comes fired failed [result] raw := by
  cases result with
  | ok v => exact .inr ⟨some (.ok v), rfl, .value rfl⟩
  | error e =>
    cases ht : e.isTransient with
    | false =>
      refine .inr ⟨some (.error e), follow_permanent ht, .failure (fun he => hresult (he ▸ rfl)) ?_⟩
      exact fails_singleton.mpr fun h => absurd (ht.symm.trans h) nofun
    | true =>
      rcases Nat.lt_or_ge failed c.policy.maxRetries with hlt | hmax
      · cases hd : c.policy.delay? turn.spread failed with
        | some delay => exact .inl ⟨e, _, rfl, ht, hlt, follow_delay ht hlt hd⟩
        | none =>
          refine .inr ⟨none, follow_lost ht hlt hd, .lost (.inl ⟨failed, hlt, turn.spread, hd⟩) fun hf => ?_⟩
          exact Nat.ne_of_lt hlt (fails_singleton.mp hf ht).1
      · have heq := Nat.le_antisymm hle hmax
        refine .inr ⟨_, follow_exhausted ht hmax, ?_⟩
        cases he : c.exhausted? e (failed + 1) with
        | none =>
          have hlimit := exhausted?_eq_none.mp he
          refine .lost (.inr (heq ▸ hlimit)) fun hf => ?_
          exact absurd (fails_singleton.mp hf ht).2 (Nat.not_lt.mpr hlimit)
        | some failure =>
          refine .failure (ne_cancelled_of_exhausted? he) ?_
          exact fails_singleton.mpr fun _ => ⟨heq, lt_of_exhausted? he⟩

/-- The induction is along the steps of the call; only the remote changes until it is over. -/
theorem Ends.comes {w : Wait α} (hcall : ∀ remote, (call remote).2.result ≠ .error .cancelled)
    (hw : w.Holds c (· ≠ .error .cancelled)) (h : Ends (c.resuming call note) fired (s, .waiting w) answers last) :
    ∃ remote raw, c.Comes fired w.failed answers raw ∧ last = finish note { s with remote } raw := by
  generalize hp : (s, Progress.waiting w) = p at h
  induction h generalizing s w with
  | «over» => cases hp
  | lost => cases hp
  | @answered s failed ends result answers last turn rest ih =>
    cases hp
    obtain ⟨hle, hw⟩ := hw
    rw [resuming_answer] at rest ih
    rcases follow_comes fired hle hw turn with ⟨e, ends', rfl, ht, hlt, hfollow⟩ | ⟨raw, hfollow, hcomes⟩
    · rw [hfollow] at ih
      obtain ⟨remote, raw, hcomes, rfl⟩ := ih (w := .delay (failed + 1) ends') hlt rfl
      exact ⟨remote, raw, hcomes.cons ht hlt, rfl⟩
    · rw [hfollow] at rest
      cases raw <;> cases rest
      · exact ⟨s.remote, none, hcomes, rfl⟩
      · exact ⟨s.remote, _, hcomes, rfl⟩
  | @delayed s failed ends answers last turn rest ih =>
    cases hp
    rw [resuming_delay] at ih
    obtain ⟨result, ends', he, hr⟩ := c.begin_eq call failed turn.moment s.remote
    have hresult : result ≠ .error .cancelled := by
      rcases hr with rfl | rfl
      · exact hcall s.remote
      · exact nofun
    rw [he] at ih
    obtain ⟨remote, raw, hcomes, rfl⟩ := ih (w := .answer failed result ends') ⟨hw, hresult⟩ rfl
    exact ⟨remote, raw, hcomes, rfl⟩
  | @cancelled s w answers last turn hfirst hf rest ih =>
    cases hp
    rw [resuming_cancelled w hfirst] at rest
    cases rest
    exact ⟨s.remote, some (.error .cancelled), .cancelled hf not_fails_nil, rfl⟩

theorem Ends.comes_start {cancelled : Bool} {turn : Turn}
    (hcall : ∀ remote, (call remote).2.result ≠ .error .cancelled)
    (hnote : note s (.error .cancelled) = (s, .error .cancelled)) (hc : cancelled = true → fired = true)
    (h : Ends (c.resuming call note) fired (c.start cancelled call turn s) answers last) :
    ∃ remote raw, c.Comes fired 0 answers raw ∧ last = finish note { s with remote } raw := by
  simp only [start] at h
  split at h
  · next hcut =>
    cases h
    have hfired := hc ((Bool.and_eq_true _ _).mp hcut).1
    exact ⟨s.remote, some (.error .cancelled), .cancelled hfired not_fails_nil, by rw [finish, hnote]⟩
  · obtain ⟨result, ends, he, hr⟩ := c.begin_eq call 0 turn.moment s.remote
    have hresult : result ≠ .error .cancelled := by
      rcases hr with rfl | rfl
      · exact hcall s.remote
      · intro h
        cases h
    rw [he] at h
    obtain ⟨remote, raw, hcomes, rfl⟩ := h.comes (w := .answer 0 result ends) hcall ⟨Nat.zero_le _, hresult⟩
    exact ⟨remote, raw, hcomes, rfl⟩

end

theorem cancelledBy_eq_some {token : Option Nat} {moment fires : Nat} :
    cancelledBy token moment = some fires ↔ token = some fires ∧ fires ≤ moment := by
  simp [cancelledBy, Option.filter_eq_some_iff]

theorem cancelledBy_eq_none {token : Option Nat} {moment : Nat} :
    cancelledBy token moment = none ↔ ∀ fires, token = some fires → moment < fires := by
  simp [cancelledBy, Option.filter_eq_none_iff]

theorem begin_ask (c : Client σ) (call : σ → σ × Reply α) (failed now : Nat) (remote : σ) :
    c.begin call failed now remote = ((c.ask call now remote).remote,
      .waiting (.answer failed (c.ask call now remote).result (c.ask call now remote).ended)) := rfl

theorem attempt_cancelled {token : Option Nat} {call : σ → σ × Reply α} {now : Nat} {remote : σ} {fires : Nat}
    (h : cancelledBy token (c.ask call now remote).ended = some fires) :
    c.attempt token call now remote = ⟨(c.ask call now remote).remote, .error .cancelled, fires⟩ := by
  simp only [attempt, h]

theorem begin_eq_attempt {token : Option Nat} {call : σ → σ × Reply α} {now : Nat} {remote : σ}
    {result : Except RemoteError α} (failed : Nat) (h : (c.attempt token call now remote).result = result)
    (hc : cancelledBy token (c.ask call now remote).ended = none ∨ result ≠ .error .cancelled) :
    c.begin call failed now remote = ((c.attempt token call now remote).remote,
      .waiting (.answer failed result (c.attempt token call now remote).ended)) := by
  cases hfires : cancelledBy token (c.ask call now remote).ended with
  | some fires =>
    rw [attempt_cancelled hfires] at h
    rcases hc with hc | hne
    · exact absurd (hc.symm.trans hfires) nofun
    · exact absurd h.symm hne
  | none =>
    simp only [attempt, hfires] at h ⊢
    rw [begin_ask, h]

/-- Attempts that are made in one go are a call at certain moments. If its token fires, its moment has
come by the end, and no attempt begins from then on. -/
def Realizes (c : Client σ) (call : σ → σ × Reply α) (note : Note σ α) (token : Option Nat) (s : State σ)
    (beginning : σ × Progress α) (r : Run σ α) : Prop :=
  ∃ fired answers,
    Ends (c.resuming call note) fired ({ s with remote := beginning.1 }, beginning.2) answers
      (finish note { s with remote := r.remote } r.result) ∧
    (fired = true → ∃ fires, token = some fires ∧ fires ≤ r.elapsed) ∧
    ∀ begun ∈ r.calls, ∀ fires, token = some fires → begun < fires

theorem realizes_attempts (c : Client σ) (draws : Nat → Spread) (call : σ → σ × Reply α) (note : Note σ α)
    (s : State σ)
    {token : Option Nat} {retries failed now : Nat} (remote : σ) (h : failed + retries = c.policy.maxRetries)
    (hnow : ∀ fires, token = some fires → now < fires) :
    c.Realizes call note token s (c.begin call failed now remote)
      (c.attempts token draws call retries failed now remote) := by
  have hfirst : ∀ begun ∈ [now], ∀ fires, token = some fires → begun < fires := by simpa using hnow
  fun_induction attempts c token draws call retries failed now remote with
  | case1 retries failed now remote a v hv =>
    rw [begin_eq_attempt failed hv (.inr nofun)]
    exact ⟨false, [.ok v], .answered (.plain 0) .over, nofun, hfirst⟩
  | case2 retries failed now remote a e hv ht =>
    cases hc : cancelledBy token (c.ask call now remote).ended with
    | some fires =>
      rw [begin_ask, ← hv, show a = _ from attempt_cancelled hc]
      exact ⟨true, [], .cancelled (.plain 0) rfl rfl .over, fun _ =>
        ⟨fires, (cancelledBy_eq_some.mp hc).1, Nat.le_refl _⟩,
        hfirst⟩
    | none =>
      have ht' : e.isTransient = false := by simpa using ht
      rw [begin_eq_attempt failed hv (.inl hc)]
      refine ⟨false, [.error e], .answered (.plain 0) ?_, nofun, hfirst⟩
      rw [resuming_answer, follow_permanent ht']
      exact .over
  | case3 failed now remote a e hv ht =>
    have ht' : e.isTransient = true := by simpa using ht
    rw [begin_eq_attempt failed hv (.inr (ne_cancelled ht'))]
    refine ⟨false, [.error e], .answered (.plain 0) ?_, nofun, hfirst⟩
    have hmax : c.policy.maxRetries ≤ failed := by omega
    rw [resuming_answer, follow_exhausted ht' hmax]
    cases c.exhausted? e (failed + 1) with
    | none => exact .lost
    | some failure => exact .over
  | case4 failed now remote a e hv ht retries hd =>
    have ht' : e.isTransient = true := by simpa using ht
    have hlt : failed < c.policy.maxRetries := by omega
    rw [begin_eq_attempt failed hv (.inr (ne_cancelled ht'))]
    refine ⟨false, [.error e], .answered ⟨0, draws failed, true⟩ ?_, nofun, hfirst⟩
    rw [resuming_answer, follow_lost ht' hlt hd]
    exact .lost
  | case5 failed now remote a e hv ht retries delay hd next fires hc =>
    have ht' : e.isTransient = true := by simpa using ht
    have hlt : failed < c.policy.maxRetries := by omega
    rw [begin_eq_attempt failed hv (.inr (ne_cancelled ht'))]
    refine ⟨true, [.error e], .answered ⟨0, draws failed, true⟩ ?_,
      fun _ => ⟨fires, (cancelledBy_eq_some.mp hc).1, Nat.le_refl _⟩, hfirst⟩
    rw [resuming_answer, follow_delay ht' hlt hd]
    exact .cancelled (.plain 0) rfl rfl .over
  | case6 failed now remote a e hv ht retries delay hd next hc rest ih =>
    have ht' : e.isTransient = true := by simpa using ht
    have hlt : failed < c.policy.maxRetries := by omega
    have hnext := cancelledBy_eq_none.mp hc
    obtain ⟨fired, answers, hends, hfired, hcalls⟩ := ih (by omega) hnext (by simpa using hnext)
    rw [begin_eq_attempt failed hv (.inr (ne_cancelled ht'))]
    refine ⟨fired, .error e :: answers, .answered ⟨0, draws failed, true⟩ ?_, hfired, ?_⟩
    · rw [resuming_answer, follow_delay ht' hlt hd]
      exact .delayed (.plain next) hends
    · intro begun hbegun
      rcases List.mem_cons.mp hbegun with rfl | hbegun
      · exact hnow
      · exact hcalls begun hbegun

theorem ends_run (c : Client σ) (draws : Nat → Spread) (call : σ → σ × Reply α) {note : Note σ α} (token : Option Nat)
    (s : State σ) (hnote : note s (.error .cancelled) = (s, .error .cancelled)) :
    ∃ fired cancelled answers, (cancelled = true → fired = true) ∧
      Ends (c.resuming call note) fired (c.start cancelled call (.plain 0) s) answers
        (finish note { s with remote := (c.run token draws call s.remote).remote }
          (c.run token draws call s.remote).result) ∧
      (fired = true → ∃ fires, token = some fires ∧ fires ≤ (c.run token draws call s.remote).elapsed) ∧
      ∀ begun ∈ (c.run token draws call s.remote).calls, ∀ fires, token = some fires → begun < fires := by
  by_cases hz : token = some 0
  · subst hz
    refine ⟨true, true, [], fun _ => rfl, ?_, fun _ => ⟨0, rfl, Nat.zero_le _⟩, nofun⟩
    simp only [run, if_true, finish, hnote]
    exact .over
  · have hpos : ∀ fires, token = some fires → 0 < fires := by
      rintro fires rfl
      exact Nat.pos_of_ne_zero fun h => hz (h ▸ rfl)
    obtain ⟨fired, answers, hends, hfired, hcalls⟩ :=
      c.realizes_attempts draws call note s s.remote (Nat.zero_add c.policy.maxRetries) hpos
    rw [run, if_neg hz]
    exact ⟨fired, false, answers, nofun, hends, hfired, hcalls⟩

end BuildCache.Client
