import BuildCache.Proofs.Build.Compile

/-! # Cancellation: units in flight end on their own, and nothing else is begun -/
namespace BuildCache

variable {σ : Type}

namespace Flight

/-- Why the work on a unit ends as it does, in the step that ends it. -/
inductive Reason (b : Builder σ) (cancelled : Bool) (turn : Build.Turn) (c : Caches σ) (f : Flight) : Ending → Prop
  | hit {a : Artifact} (hs : f.stage = .lookup) (ha : (c.store.get f.key).2 = .ok (some a)) :
      Reason b cancelled turn c f (.localHit a)
  | fetched {a : Artifact} {raw : Bytes} (hs : f.stage = .adopt a) (ha : Artifact.parse f.key raw = .ok a) :
      Reason b cancelled turn c f (.remoteHit a)
  | compiled {a : Artifact} (hs : f.stage = .keep a) (hk : a.key = f.key)
      (ha : b.compiler f.source f.dependencies = .output a.data) : Reason b cancelled turn c f (.compiled a)
  | rejected {message : String} (hs : f.stage = .compile)
      (hm : b.compiler f.source f.dependencies = .rejected message) : Reason b cancelled turn c f (.failed message)
  | crashed (hs : f.stage = .compile) (hc : b.compiler f.source f.dependencies = .crashed) :
      Reason b cancelled turn c f (.failed (Compilation.crashReport turn.failure))
  | interrupted (hs : f.stage = .fetch ∨ ∃ w, f.stage = .await w) (hc : cancelled = true) :
      Reason b cancelled turn c f .cancelled

/-- What stages stand for: answers that are awaited, artifacts that were fetched or compiled. -/
def Founds (b : Builder σ) (f : Flight) : Stage → Prop
  | .await w => w.Holds b.client (· ≠ .error .cancelled)
  | .adopt a => ∃ raw, Artifact.parse f.key raw = .ok a
  | .keep a => a.key = f.key ∧ b.compiler f.source f.dependencies = .output a.data
  | .lookup | .fetch | .compile | .ended _ | .lost .. => True

variable {b : Builder σ} {cancelled : Bool} {turn : Build.Turn} {c : Caches σ} {f : Flight}

private theorem holds_fetch (hb : Build.NeverCancels b.client.backend) (hf : f.Founds b f.stage)
    {p : Client.Progress (Option Bytes)}
    (h : (f.stage = .fetch ∧ p = (b.client.startFetch cancelled f.key turn.toTurn c.remote).2) ∨
      ∃ w, f.stage = .await w ∧ p = (b.client.resumeFetch cancelled f.key w turn.toTurn c.remote).2) :
    p.Holds b.client (· ≠ .error .cancelled) (Client.Fetched (· ≠ .error .cancelled) cancelled) := by
  have htime : (Except.error b.client.timedOut : Except RemoteError (Option Bytes)) ≠ .error .cancelled := by
    simp [Client.timedOut]
  rcases h with ⟨-, rfl⟩ | ⟨w, hs, rfl⟩
  · exact Client.startFetch_holds (hb _ _) htime
  · rw [hs] at hf
    exact Client.resumeFetch_holds hf (hb _ _) htime

private theorem founds_fetched {memory : Option Nat} {failure : String} {p : Client.Progress (Option Bytes)}
    (hp : p.Holds b.client (· ≠ .error .cancelled) (Client.Fetched (· ≠ .error .cancelled) cancelled)) :
    f.Founds b (f.fetched memory failure p) := by
  cases p with
  | waiting w => exact hp
  | lost => trivial
  | «over» result =>
    rcases result with e | _ | raw
    · obtain ⟨rfl, -⟩ := hp
      trivial
    · trivial
    · simp only [Flight.fetched]
      split
      · next a ha => exact ⟨raw, Artifact.decode_eq_ok.mp ha⟩
      · trivial
      · trivial

theorem founds_work (hb : Build.NeverCancels b.client.backend) (hf : f.Founds b f.stage) :
    f.Founds b (f.work b cancelled turn c).stage := by
  simp only [work]
  cases hs : f.stage with
  | lookup =>
    simp only [lookup]
    split <;> trivial
  | fetch => exact founds_fetched (holds_fetch hb hf (.inl ⟨hs, rfl⟩))
  | await w => exact founds_fetched (holds_fetch hb hf (.inr ⟨w, hs, rfl⟩))
  | compile =>
    simp only [compile]
    split
    · next data hdata => exact ⟨rfl, hdata⟩
    · trivial
    · trivial
  | adopt | keep => trivial
  | ended | lost => simpa only [hs] using hf

private theorem reason_of_fetched {memory : Option Nat} {failure : String} {p : Client.Progress (Option Bytes)}
    (hs : f.stage = .fetch ∨ ∃ w, f.stage = .await w)
    (hp : p.Holds b.client (· ≠ .error .cancelled) (Client.Fetched (· ≠ .error .cancelled) cancelled))
    {e : Ending} (he : f.fetched memory failure p = .ended e) : f.Reason b cancelled turn c e := by
  obtain rfl := cancelled_of_fetched he
  simp only [Flight.fetched] at he
  split at he
  · cases he
  · split at he <;> cases he
  · cases he
  · obtain ⟨-, hc⟩ := hp
    exact .interrupted hs (hc.resolve_right fun h => h rfl)
  · cases he
  · cases he

theorem reason_of_work (hb : Build.NeverCancels b.client.backend) (hf : f.Founds b f.stage)
    (ho : f.stage.isOver = false) {e : Ending} (he : (f.work b cancelled turn c).stage = .ended e) :
    f.Reason b cancelled turn c e := by
  simp only [work] at he
  cases hs : f.stage with
  | lookup =>
    simp only [hs, lookup] at he
    split at he
    · next store a ha =>
      cases he
      exact .hit hs (congrArg Prod.snd ha)
    · cases he
    · cases he
  | fetch =>
    rw [hs] at he
    exact reason_of_fetched (.inl hs) (holds_fetch hb hf (.inl ⟨hs, rfl⟩)) he
  | await w =>
    rw [hs] at he
    exact reason_of_fetched (.inr ⟨w, hs⟩) (holds_fetch hb hf (.inr ⟨w, hs, rfl⟩)) he
  | adopt a =>
    rw [hs] at he hf
    cases he
    obtain ⟨raw, hraw⟩ := hf
    exact .fetched hs hraw
  | keep a =>
    rw [hs] at he hf
    cases he
    exact .compiled hs hf.1 hf.2
  | compile =>
    simp only [hs, compile] at he
    split at he
    · cases he
    · next message hm =>
      cases he
      exact .rejected hs hm
    · next hc =>
      cases he
      exact .crashed hs hc
  | ended | lost =>
    rw [hs] at ho
    cases ho

end Flight

namespace Build

variable {b : Builder σ} {p : Plan} {meddles : Caches σ → Caches σ → Prop} {c : Caches σ} {first : State σ}
  {s t : State σ} {e : Event} {es : List Event}

theorem Run.cancelled_iff (hr : Run b p meddles (.initial p c) es s) : s.cancelled = true ↔ .cancel ∈ es := by
  refine Run.history (I := fun es s => s.cancelled = true ↔ .cancel ∈ es) (fun es s e t _ h hs => ?_)
    (fun es s c _ h _ => h) ?_ hr
  · rw [List.mem_append, List.mem_singleton, ← h]
    by_cases he : e = .cancel
    · cases step_of_step? (he ▸ hs)
      simp [he]
    · rw [(step_of_step? hs).cancelled_eq he]
      simp [Ne.symm he]
  · simp [State.initial]

theorem State.outcome_resultOf_ne_skipped (f : Flight) (e : Ending) (d : Duration) :
    (State.resultOf f e d).outcome ≠ .skipped := by
  cases e <;> nofun

/-- A unit is released or skipped. -/
inductive Takes (s t : State σ) (n : String) : Prop
  | released {f : Flight} (hf : f.name = n) (hflights : t.flights = s.flights ++ [f])
      (hresults : t.board.results = s.board.results)
  | skipped {cause : String} (hflights : t.flights = s.flights)
      (hresults : t.board.results = s.board.results ++ [.skipped n cause])

/-- No unit is released or skipped. -/
structure Idles (s t : State σ) : Prop where
  taken : t.board.taken = s.board.taken
  flights : ∀ f ∈ t.flights, f.name ∈ s.flights.map (·.name)
  skipped : ∀ r ∈ t.board.results, r.outcome = .skipped → r ∈ s.board.results

/-- No unit is taken up but by the release loop of a build that is not cancelled. -/
theorem Step.takes (hk : s.Kept p b.environment) (hs : Step b p s e t) :
    Idles s t ∨ s.phase = .releasing ∧ s.cancelled = false ∧ s.flights.length < b.workers ∧
      ∃ n, s.board.next? p = some n ∧ t.board.taken = s.board.taken ++ [n] ∧ Takes s t n := by
  have hsame : ∀ f ∈ s.flights, f.name ∈ s.flights.map (·.name) := fun f hf => List.mem_map_of_mem hf
  cases hs with
  | wait | publish | cancel => exact .inl ⟨rfl, hsame, fun _ hr _ => hr⟩
  | perish | abort => exact .inl ⟨rfl, fun f hf => absurd hf List.not_mem_nil, fun _ hr _ => hr⟩
  | finish =>
    refine .inl ⟨rfl, hsame, fun r hr ho => ?_⟩
    rcases List.mem_append.mp hr with hr | hr
    · exact hr
    · obtain ⟨n, -, rfl⟩ := List.mem_map.mp hr
      cases ho
  | @work i turn f hf ho =>
    refine .inl ⟨rfl, fun g hg => ?_, fun _ hr _ => hr⟩
    rcases List.mem_or_eq_of_mem_set hg with hg | rfl
    · exact hsame g hg
    · exact hsame f (List.mem_of_getElem? hf)
  | @join i duration f e hphase hf he =>
    refine .inl ⟨Orderly.taken_conclude .., fun g hg => hsame g (List.mem_of_mem_eraseIdx hg), fun r hr ho => ?_⟩
    rw [State.join, Board.record, Orderly.results_conclude] at hr
    rcases List.mem_append.mp hr with hr | hr
    · exact hr
    · rw [List.mem_singleton] at hr
      exact absurd (hr ▸ ho) (State.outcome_resultOf_ne_skipped f e duration)
  | lose hphase hn hs => exact absurd hs (hk.find?_next_ne_none hphase hn)
  | skip hphase hw hc hn hb => exact .inr ⟨hphase, hc, hw, _, hn, rfl, .skipped rfl rfl⟩
  | @send n source hphase hw hc hn hb hs =>
    have hname : (s.flightOf b n source).name = n := (Graph.find?_eq_some.mp hs).2
    exact .inr ⟨hphase, hc, hw, n, hn, rfl, .released hname rfl rfl⟩

theorem Step.taken (hk : s.Kept p b.environment) (hs : Step b p s e t) :
    t.board.taken = s.board.taken ∨ s.phase = .releasing ∧
      ∃ n, s.board.next? p = some n ∧ t.board.taken = s.board.taken ++ [n] := by
  rcases hs.takes hk with hidles | ⟨hphase, -, -, n, hn, htaken, -⟩
  · exact .inl hidles.taken
  · exact .inr ⟨hphase, n, hn, htaken⟩

theorem Step.taken_subset (hk : s.Kept p b.environment) (hs : Step b p s e t) {n : String}
    (hn : n ∈ s.board.taken) : n ∈ t.board.taken := by
  rcases hs.taken hk with h | ⟨-, m, -, h⟩
  · exact h ▸ hn
  · exact h ▸ List.mem_append_left _ hn

theorem Step.of_cancelled (hk : s.Kept p b.environment) (hs : Step b p s e t) (hc : s.cancelled = true) :
    t.cancelled = true ∧ t.board.taken = s.board.taken ∧
      ∀ r ∈ t.board.results, r.outcome = .skipped → r ∈ s.board.results := by
  have hidles : Idles s t := (hs.takes hk).resolve_right fun h => by
    rw [hc] at h
    cases h.2.1
  refine ⟨?_, hidles.taken, hidles.skipped⟩
  by_cases he : e = .cancel
  · cases he ▸ hs
    rfl
  · rw [hs.cancelled_eq he, hc]

/-- In the course of a run the work on a unit ended, for a reason of its own. -/
def Ended (b : Builder σ) (p : Plan) (meddles : Caches σ → Caches σ → Prop) (first : State σ)
    (es : List Event) (f : Flight) (e : Ending) : Prop :=
  ∃ before i turn after u stage, es = before ++ .work i turn :: after ∧
    Run b p meddles first before u ∧ u.flights[i]? = some { f with stage } ∧
    ({ f with stage }.work b u.cancelled turn u.caches).stage = .ended e ∧
    { f with stage }.Reason b u.cancelled turn u.caches e

/-- How units come by their results: skipped behind a failure, by the end of the work on them, or
cancelled before they were taken up. -/
inductive Accounted (b : Builder σ) (p : Plan) (meddles : Caches σ → Caches σ → Prop) (first : State σ)
    (es : List Event) (board : Board) : UnitResult → Prop
  | skipped {n cause : String} {q : UnitResult} (hn : n ∈ board.taken) (hq : q ∈ board.results)
      (hf : q.outcome = .failed) (hd : Relation.TransGen (DependsOn p.graph.sources) n q.name) :
      Accounted b p meddles first es board (.skipped n cause)
  | ended {f : Flight} {e : Ending} {d : Duration} (hn : f.name ∈ board.taken)
      (he : Ended b p meddles first es f e) : Accounted b p meddles first es board (State.resultOf f e d)
  | never {n : String} (hn : n ∉ board.taken) : Accounted b p meddles first es board (.cancelled n none)

theorem Ended.append {f : Flight} {e : Ending} (h : Ended b p meddles first es f e) (es' : List Event) :
    Ended b p meddles first (es ++ es') f e := by
  obtain ⟨before, i, turn, after, u, stage, rfl, h⟩ := h
  exact ⟨before, i, turn, after ++ es', u, stage, by simp, h⟩

theorem Ended.cancel_mem {f : Flight} (h : Ended b p meddles (.initial p c) es f .cancelled) : .cancel ∈ es := by
  obtain ⟨before, i, turn, after, u, stage, rfl, hr, -, -, hreason⟩ := h
  cases hreason with
  | interrupted hs hc => exact List.mem_append_left _ (hr.cancelled_iff.mp hc)

theorem State.Kept.mem_taken {env : Environment} (hk : s.Kept p env)
    (hphase : s.phase = .releasing ∨ s.phase = .waiting) {r : UnitResult} (hr : r ∈ s.board.results) :
    r.name ∈ s.board.taken :=
  (hk.orderly hphase).tracks.frontier.done_taken _ (List.mem_map_of_mem hr)

namespace Accounted

private theorem step (hk : s.Kept p b.environment) (hs : Step b p s e t) {r : UnitResult}
    (hr : r ∈ s.board.results) (h : Accounted b p meddles first es s.board r) :
    Accounted b p meddles first (es ++ [e]) t.board r := by
  cases h with
  | skipped hn hq hf hd => exact .skipped (hs.taken_subset hk hn) (hs.results_subset hq) hf hd
  | ended hn he => exact .ended (hs.taken_subset hk hn) (he.append [e])
  | never hn =>
    refine .never ?_
    rcases hs.taken hk with heq | ⟨hphase, -⟩
    · rwa [heq]
    · exact absurd (hk.mem_taken (.inl hphase) hr) hn

end Accounted

/-- All units are accounted for at every moment, and those in flight are on their way. -/
private structure Accounting (b : Builder σ) (p : Plan) (meddles : Caches σ → Caches σ → Prop) (first : State σ)
    (es : List Event) (s : State σ) : Prop where
  founds : ∀ f ∈ s.flights, f.Founds b f.stage
  ended : ∀ f ∈ s.flights, ∀ e, f.stage = .ended e → Ended b p meddles first es f e
  results : ∀ r ∈ s.board.results, Accounted b p meddles first es s.board r

private theorem Accounting.ended_step (hb : NeverCancels b.client.backend)
    (hr : Run b p meddles first es s) (h : Accounting b p meddles first es s) (hs : Step b p s e t) :
    ∀ f ∈ t.flights, ∀ g, f.stage = .ended g → Ended b p meddles first (es ++ [e]) f g := by
  have hold : ∀ f ∈ s.flights, ∀ g, f.stage = .ended g → Ended b p meddles first (es ++ [e]) f g :=
    fun f hf g hg => (h.ended f hf g hg).append [e]
  cases hs with
  | finish | wait | skip | lose | publish | cancel => exact hold
  | send =>
    intro f hf g hg
    rcases List.mem_append.mp hf with hf | hf
    · exact hold f hf g hg
    · rw [List.mem_singleton.mp hf] at hg
      cases hg
  | @work i turn f hf ho =>
    intro f' hf' g hg
    rcases List.mem_or_eq_of_mem_set hf' with hmem | rfl
    · exact hold f' hmem g hg
    · exact ⟨es, i, turn, [], s, f.stage, rfl, hr, hf, hg,
        Flight.reason_of_work hb (h.founds f (List.mem_of_getElem? hf)) ho hg⟩
  | join => exact fun f hf => hold f (List.mem_of_mem_eraseIdx hf)
  | perish | abort => exact fun f hf => absurd hf List.not_mem_nil

private theorem Accounting.failed_of_isBad (hk : s.Kept p b.environment) (hphase : s.phase = .releasing)
    (hcancel : .cancel ∉ es) (h : Accounting b p meddles (.initial p c) es s) {r : UnitResult}
    (hr : r ∈ s.board.results) (hbad : r.isBad) : r.outcome = .failed := by
  rcases (by simpa [UnitResult.isBad] using hbad : r.outcome = .failed ∨ r.outcome = .cancelled) with ho | ho
  · exact ho
  · exfalso
    cases h.results r hr with
    | skipped => cases ho
    | @ended f e d hn he =>
      cases e with
      | cancelled => exact hcancel he.cancel_mem
      | localHit | remoteHit | compiled | failed => cases ho
    | never hn => exact hn (hk.mem_taken (.inl hphase) hr)

private theorem Accounting.results_step (hp : p.Valid) (hr : Run b p meddles (.initial p c) es s)
    (h : Accounting b p meddles (.initial p c) es s) (hs : Step b p s e t) :
    ∀ r ∈ t.board.results, Accounted b p meddles (.initial p c) (es ++ [e]) t.board r := by
  have hk := hr.kept hp
  have hold : ∀ r ∈ s.board.results, Accounted b p meddles (.initial p c) (es ++ [e]) t.board r :=
    fun r hmem => (h.results r hmem).step hk hs hmem
  intro r hmem
  cases hs with
  | wait | send | lose | work | perish | abort | publish | cancel => exact hold r hmem
  | finish hphase hf hstuck =>
    rcases List.mem_append.mp hmem with hmem | hmem
    · exact hold r hmem
    · obtain ⟨n, hn, rfl⟩ := List.mem_map.mp hmem
      have ho := hk.orderly (.inl hphase)
      have hnot : n ∉ s.board.taken := fun htaken => by
        rcases ho.tracks.mem_taken.mp htaken with hd | hd
        · obtain ⟨q, hq, hname⟩ := List.mem_map.mp hd
          have hrecorded : s.board.isRecorded n = true := List.any_eq_true.mpr ⟨q, hq, by simpa using hname⟩
          simp [hrecorded] at hn
        · rw [hf] at hd
          cases hd
      have hkey : s.board.keys.find? n = none := by
        by_contra hsome
        obtain ⟨k, hk⟩ := Option.ne_none_iff_exists'.mp hsome
        exact hnot (ho.keyed.taken n k hk)
      rw [hkey]
      exact .never hnot
  | @skip n cause hphase hw hc hn hcause =>
    rcases List.mem_append.mp hmem with hmem | hmem
    · exact hold r hmem
    · obtain rfl := List.mem_singleton.mp hmem
      obtain ⟨q, hq, hbad, hreach⟩ := hk.exists_bad hphase hcause
      have hcancel : .cancel ∉ es := fun h => by
        rw [hr.cancelled_iff.mpr h] at hc
        cases hc
      rw [Graph.Reaches, hp.needs_eq] at hreach
      exact .skipped (List.mem_append_right _ (List.mem_singleton_self n)) (List.mem_append_left _ hq)
        (h.failed_of_isBad hk hphase hcancel hq hbad) hreach
  | @join i duration f g hphase hf hg =>
    have hmem' := hmem
    rw [State.join, Board.record, Orderly.results_conclude] at hmem'
    rcases List.mem_append.mp hmem' with hmem' | hmem'
    · exact hold r hmem'
    · obtain rfl := List.mem_singleton.mp hmem'
      have hf := List.mem_of_getElem? hf
      have htaken : f.name ∈ s.board.taken :=
        (hk.orderly (.inr hphase)).tracks.mem_taken.mpr (.inr (List.mem_map_of_mem hf))
      exact .ended (Step.taken_subset hk (.join hphase ‹_› hg) htaken) ((h.ended f hf g hg).append _)

private theorem Run.accounting (hp : p.Valid) (hb : NeverCancels b.client.backend)
    (hr : Run b p meddles (.initial p c) es s) : Accounting b p meddles (.initial p c) es s := by
  refine Run.history (I := Accounting b p meddles (.initial p c)) (fun es s e t hr h hs => ?_)
    (fun es s c' _ h _ => ⟨h.founds, h.ended, h.results⟩) ⟨?_, ?_, ?_⟩ hr
  · have hstep := step_of_step? hs
    refine ⟨?_, h.ended_step hb hr hstep, h.results_step hp hr hstep⟩
    exact hstep.flights h.founds (fun _ _ _ _ _ _ => trivial)
      fun f hf _ _ => Flight.founds_work hb (h.founds f hf)
  · exact fun f hf => absurd hf List.not_mem_nil
  · exact fun f hf => absurd hf List.not_mem_nil
  · exact fun r hr => absurd hr List.not_mem_nil

theorem Step.aborted (hk : s.Kept p b.environment) (hs : Step b p s e t) {l : Loss} {failure : String}
    (h : s.phase = .aborted l failure) : t.phase = .aborted l failure := by
  cases hs with
  | finish hphase | wait hphase | skip hphase | send hphase | lose hphase | join hphase | abort hphase =>
    rw [h] at hphase
    cases hphase
  | perish hf =>
    simp only [State.Kept, h] at hk
    rw [hk.2] at hf
    cases hf
  | work | publish | cancel => exact h

/-- A unit in flight stays there until its end is recorded, unless the build is given up. -/
private theorem Run.lands (hp : p.Valid) (hb : NeverCancels b.client.backend) {before after : List Event}
    (hr : Run b p meddles (.initial p c) before s) {f : Flight} (hf : f ∈ s.flights)
    (hafter : Run b p meddles s after t) (hphase : ∀ l failure, t.phase ≠ .aborted l failure) :
    (∃ stage, { f with stage } ∈ t.flights) ∨
      ∃ e d, Ended b p meddles (.initial p c) (before ++ after) f e ∧ State.resultOf f e d ∈ t.board.results := by
  revert hphase
  refine Run.history (I := fun after t => (∀ l failure, t.phase ≠ .aborted l failure) →
      (∃ stage, { f with stage } ∈ t.flights) ∨
        ∃ e d, Ended b p meddles (.initial p c) (before ++ after) f e ∧ State.resultOf f e d ∈ t.board.results)
    (fun es u e v hu h hs hphase => ?_) (fun _ _ _ _ h _ => h) (fun _ => .inl ⟨f.stage, hf⟩) hafter
  have hstep := step_of_step? hs
  rw [← List.append_assoc]
  have hk := (hr.trans hu).kept hp
  rcases h fun l failure habort => hphase l failure (hstep.aborted hk habort) with
    ⟨stage, hmem⟩ | ⟨g, d, hended, hrecorded⟩
  · rcases hstep.flight hmem with ⟨stage', hmem', -⟩ | ⟨g, d, hg, hrecorded⟩ | ⟨l, failure, habort⟩
    · exact .inl ⟨stage', hmem'⟩
    · have hended := ((hr.trans hu).accounting hp hb).ended _ hmem g hg
      exact .inr ⟨g, d, hended.append [e], hrecorded⟩
    · exact absurd habort (hphase l failure)
  · exact .inr ⟨g, d, hended.append [e], hstep.results_subset hrecorded⟩

/-- What a cancellation leaves of a build, at every moment of it. -/
structure CutCleanly (b : Builder σ) (p : Plan) (meddles : Caches σ → Caches σ → Prop) (first : State σ)
    (sources : List Source) (es : List Event) (s : State σ) : Prop where
  /-- Once the build is cancelled, no unit is released or skipped. -/
  stops : .cancel ∈ es → ∀ es' t, Run b p meddles s es' t → t.board.taken = s.board.taken ∧
    ∀ r ∈ t.board.results, r.outcome = .skipped → r ∈ s.board.results
  /-- Every unit in flight ends on its own, and in the end this is its result, with its key. -/
  lands : ∀ f ∈ s.flights, ∀ es' t, Run b p meddles s es' t → t.phase = .finished →
    ∃ e d, Ended b p meddles first (es ++ es') f e ∧ State.resultOf f e d ∈ t.board.results
  /-- A unit comes by its result when it is skipped behind one that failed, when the work on it ends, or
  because it was never taken up. -/
  accounted : ∀ r ∈ s.board.results, Accounted b p meddles first es s.board r
  /-- In the end, the units that were never taken up are cancelled, without key and artifact. -/
  cuts : s.phase = .finished → ∀ source ∈ sources, source.name ∉ s.board.taken →
    .cancelled source.name none ∈ s.board.results
  /-- The report has one entry for each unit, and that is the one recorded. -/
  reports : s.phase = .finished → ∀ startedAt elapsed, ∃ report, s.report startedAt elapsed = .ok report ∧
    report.results.names.Perm (sources.map (·.name)) ∧
    ∀ r, report.results.find? r.name = some r ↔ r ∈ s.board.results
  /-- Only work that breaks down keeps a build from its report. -/
  aborts : ∀ l failure, s.phase = .aborted l failure → BrokeDown b p meddles first es l

private theorem cuts (hp : p.Valid) (hk : s.Kept p b.environment)
    (h : ∀ r ∈ s.board.results, Accounted b p meddles first es s.board r) (hphase : s.phase = .finished)
    {source : Source} (hs : source ∈ p.graph.sources) (hn : source.name ∉ s.board.taken) :
    .cancelled source.name none ∈ s.board.results := by
  obtain ⟨r, hmem, hname⟩ := hk.exists_result hp hphase (List.mem_map_of_mem hs)
  rw [← hname] at hn ⊢
  cases h r hmem with
  | skipped htaken => exact absurd htaken hn
  | ended htaken => exact absurd htaken hn
  | never => exact hmem

/-- Whenever a build is cancelled, before, while or after any unit is worked on: no unit is taken up any
more, the units in flight end on their own, the others are cancelled without a key, and the build ends
with one result for each unit, unless the work on a unit breaks down. -/
theorem cancellation_cuts (b : Builder σ) (c : Caches σ) {sources : List Source}
    (hp : Plan.ofSources sources = .ok p) (hb : NeverCancels b.client.backend) :
    (∀ i turn, ∃ t es, b.build c sources i turn = .ok t ∧ t.isOver = true ∧
      (State.initial p c).steps? b p es = some t) ∧
    ∀ meddles es s, Run b p meddles (.initial p c) es s →
      CutCleanly b p meddles (.initial p c) sources es s := by
  refine ⟨fun i turn => ?_, fun meddles es s hr => ?_⟩
  · obtain ⟨t, es, ht, ho, hes, -⟩ := State.build_isOver hp c i turn
    exact ⟨t, es, ht, ho, hes⟩
  obtain ⟨hv, rfl⟩ := Plan.ofSources_ok hp
  have hk := hr.kept hv
  have haccounted := (hr.accounting hv hb).results
  refine ⟨fun hcancel es' t ht => ?_, fun f hf es' t ht hphase => ?_, haccounted, fun hphase source => ?_,
    fun hphase startedAt elapsed => hk.exists_report hv hphase startedAt elapsed, fun _ _ => hr.brokeDown⟩
  · have hstopped : t.cancelled = true ∧ t.board.taken = s.board.taken ∧
        ∀ r ∈ t.board.results, r.outcome = .skipped → r ∈ s.board.results := by
      refine ht.induction_kept (I := fun t => t.cancelled = true ∧ t.board.taken = s.board.taken ∧
        ∀ r ∈ t.board.results, r.outcome = .skipped → r ∈ s.board.results) hv (fun u e v _ hk h hs => ?_)
        (fun _ _ h _ => h) hk ⟨hr.cancelled_iff.mpr hcancel, rfl, fun _ h _ => h⟩
      obtain ⟨hcancelled, htaken, hskipped⟩ := hs.of_cancelled hk h.1
      exact ⟨hcancelled, htaken.trans h.2.1, fun r hr ho => h.2.2 r (hskipped r hr ho) ho⟩
    exact hstopped.2
  · rcases hr.lands hv hb hf ht (by rw [hphase]; nofun) with ⟨stage, hmem⟩ | hrecorded
    · rw [((hr.trans ht).kept hv).flights_eq_nil hphase] at hmem
      cases hmem
    · exact hrecorded
  · exact fun hs hn => cuts hv hk haccounted hphase hs hn

/-- The first unit is in flight when the build is cancelled. -/
def cutEvents : List Event :=
  [.release, .work 0 (.plain 0), .cancel, .work 0 (.plain 0), .work 0 (.plain 0), .work 0 (.plain 0),
  .release, .join 0 0, .release]

theorem cancellation_cuts_pair : Plan.ofSources pair = .ok pairPlan ∧ ∃ s : State Unit,
    (State.initial pairPlan emptyCaches).steps? acceptingBuilder pairPlan cutEvents = some s ∧
    s.phase = .finished ∧ s.board.results.map (fun r => (r.name, r.outcome)) = [("a", .compiled), ("b", .cancelled)] ∧
    .cancelled "b" none ∈ s.board.results ∧
    CutCleanly acceptingBuilder pairPlan (fun _ _ => False) (.initial pairPlan emptyCaches) pair cutEvents s := by
  have hp : Plan.ofSources pair = .ok pairPlan := by cbv
  have hsteps : ((State.initial pairPlan emptyCaches).steps? acceptingBuilder pairPlan cutEvents).any
      (fun s => s.phase = .finished && "b" ∉ s.board.taken &&
        s.board.results.map (fun r => (r.name, r.outcome)) = [("a", .compiled), ("b", .cancelled)]) = true := by
    decide +kernel
  obtain ⟨s, hs, hfacts⟩ := (Option.any_eq_true _ _).mp hsteps
  obtain ⟨⟨hphase, hb⟩, hresults⟩ : (s.phase = .finished ∧ "b" ∉ s.board.taken) ∧
      s.board.results.map (fun r => (r.name, r.outcome)) = [("a", .compiled), ("b", .cancelled)] := by
    simpa using hfacts
  have hcut := (cancellation_cuts acceptingBuilder emptyCaches hp (neverCancels_disabled Unit)).2
    (fun _ _ => False) cutEvents s (.of_steps? hs)
  exact ⟨hp, s, hs, hphase, hresults, hcut.cuts hphase ⟨"b", [], ["a", "a"]⟩ (by decide) hb, hcut⟩

/-- The unit is lost, and only then the build is cancelled. -/
def lateEvents : List Event :=
  [.release, .work 0 (.plain 0), .work 0 (.plain 0), .work 0 (.plain 0), .work 0 (.plain 0),
  .work 0 (.plain 0), .cancel, .release, .join 0 0]

/-- A cancellation does not keep a retry without a delay from ending the build without a report. -/
theorem no_cut_without_delay : Plan.ofSources lone = .ok lonePlan ∧ NeverCancels hopelessBuilder.client.backend ∧
    .cancel ∈ lateEvents ∧ ∃ s : State Unit,
      (State.initial lonePlan emptyCaches).steps? hopelessBuilder lonePlan lateEvents = some s ∧ s.isOver = true ∧
      ∀ startedAt elapsed, s.report startedAt elapsed = .error (.task "the task panicked") := by
  have hsteps : ((State.initial lonePlan emptyCaches).steps? hopelessBuilder lonePlan lateEvents).any
      (·.phase = .aborted .retry "the task panicked") = true := by decide +kernel
  obtain ⟨s, hs, haborted⟩ := (Option.any_eq_true _ _).mp hsteps
  have haborted : s.phase = .aborted .retry "the task panicked" := of_decide_eq_true haborted
  have hp : Plan.ofSources lone = .ok lonePlan := by cbv
  have hnever : NeverCancels hopelessBuilder.client.backend := fun _ _ h => by cases h
  have hover : s.isOver = true := by simp [State.isOver, haborted]
  exact ⟨hp, hnever, by decide, s, hs, hover, fun _ _ => by rw [State.report, haborted]; rfl⟩

end Build
end BuildCache
