import Mathlib
import BuildCache.Proofs.Build.Flight
import BuildCache.Proofs.Build.Run
import BuildCache.Proofs.NameMap

/-! # Schedules: no unit is lost, taken up twice or skipped without a failure, and nothing blocks -/
namespace BuildCache

variable {σ : Type}

/-- Without ready units and units in flight, no unit is left to be reported as cancelled. -/
theorem Board.close_eq {p : Plan} {b : Board} (hp : p.Valid) (ht : b.Tracks p [])
    (hn : b.next? p = none) :
    b.close p = b := by
  have hall : ∀ n ∈ p.order, b.isRecorded n = true := fun n hn' => by
    have hd := ht.complete hp (ready_eq_nil hp ht hn) (hp.mem_order.mp hn')
    obtain ⟨r, hr, hrn⟩ := List.mem_map.mp hd
    exact List.any_eq_true.mpr ⟨r, hr, by simpa using hrn⟩
  have hnil : (p.order.filter fun n => !b.isRecorded n) = [] :=
    List.filter_eq_nil_iff.mpr fun n hn' => by simp [hall n hn']
  simp only [close, hnil, List.map_nil, List.append_nil]

theorem Board.done_close {p : Plan} {b : Board} {flying : List String} (hp : p.Valid)
    (ht : b.Tracks p flying) :
    (b.close p).done.Perm p.graph.names := by
  have hrecorded : ∀ n, b.isRecorded n = true ↔ n ∈ b.done := fun n => by
    simp [isRecorded, done, List.any_eq_true]
  have hdone : (b.close p).done = b.done ++ p.order.filter fun n => !b.isRecorded n := by
    simp [close, done, UnitResult.cancelled, Function.comp_def]
  have hnodup : (b.close p).done.Nodup := by
    rw [hdone]
    refine List.nodup_append.mpr ⟨ht.nodup_done, hp.nodup.filter _, fun n hn m hm he => ?_⟩
    have hm := (List.mem_filter.mp hm).2
    rw [← he, (hrecorded n).mpr hn] at hm
    cases hm
  apply (List.perm_ext_iff_of_nodup hnodup p.graph.names_nodup).mpr
  intro n
  rw [hdone, List.mem_append, List.mem_filter, hp.mem_order]
  constructor
  · rintro (hn | hn)
    · exact ht.known (ht.frontier.done_taken n hn)
    · exact hn.1
  · intro hn
    by_cases hd : n ∈ b.done
    · exact .inl hd
    · exact .inr ⟨hn, by simpa using mt (hrecorded n).mp hd⟩

namespace Build

variable {b : Builder σ} {p : Plan} {meddles : Caches σ → Caches σ → Prop}
  {s t : State σ} {es : List Event}

/-- In a run the work on a unit broke down. -/
def BrokeDown (b : Builder σ) (p : Plan) (meddles : Caches σ → Caches σ → Prop) (first : State σ)
    (es : List Event) (l : Loss) : Prop :=
  ∃ before after s f, es = before ++ after ∧ Run b p meddles first before s ∧ f ∈ s.flights ∧ f.Breaks b s.caches l

theorem BrokeDown.append {first : State σ} {l : Loss} (h : BrokeDown b p meddles first es l) (more : List Event) :
    BrokeDown b p meddles first (es ++ more) l := by
  obtain ⟨before, after, u, f, rfl, hr, hf, hbreaks⟩ := h
  exact ⟨before, after ++ more, u, f, List.append_assoc .., hr, hf, hbreaks⟩

private def anything : Stage.Limits := ⟨fun _ => True, fun _ => True, fun _ => True⟩

private theorem respects_anything (b : Builder σ) (cancelled : Bool) (turn : Turn) (c : Caches σ) (f : Flight) :
    Flight.Respects b cancelled turn c f anything :=
  ⟨fun _ _ => trivial, trivial, trivial, fun _ _ _ _ => trivial, fun _ => trivial, fun _ _ => trivial,
    fun _ _ => trivial, fun _ _ => trivial, fun _ _ => trivial, fun _ => trivial⟩

/-- A build is given up only for a unit that the work on broke down. -/
private structure Traced (b : Builder σ) (p : Plan) (meddles : Caches σ → Caches σ → Prop) (first : State σ)
    (es : List Event) (s : State σ) : Prop where
  flights : ∀ f ∈ s.flights, f.stage.Within b.client anything ∧
    ∀ l failure, f.stage = .lost l failure → BrokeDown b p meddles first es l
  aborted : ∀ l failure, s.phase = .aborted l failure → BrokeDown b p meddles first es l

private theorem Traced.step {first : State σ} {e : Event} (hr : Run b p meddles first es s)
    (h : Traced b p meddles first es s) (hs : Step b p s e t) : Traced b p meddles first (es ++ [e]) t := by
  have hbroke : ∀ f ∈ s.flights, ∀ turn l failure, f.stage.isOver = false →
      (f.work b s.cancelled turn s.caches).stage = .lost l failure → BrokeDown b p meddles first (es ++ [e]) l :=
    fun f hf turn l failure ho hl => ⟨es, [e], s, f, rfl, hr, hf,
      Flight.breaks_of_work (respects_anything b s.cancelled turn s.caches f) (h.flights f hf).1 ho hl⟩
  refine ⟨hs.flights (fun f hf => ?_) (fun _ _ _ _ _ _ => ⟨trivial, nofun⟩) fun f hf turn ho => ⟨?_, ?_⟩,
    fun l failure habort => ?_⟩
  · exact ⟨(h.flights f hf).1, fun l failure hl => ((h.flights f hf).2 l failure hl).append _⟩
  · exact (respects_anything b s.cancelled turn s.caches f).work (h.flights f hf).1
  · exact fun l failure => hbroke f hf turn l failure ho
  · rcases hs.aborted_cases habort with hold | ⟨f, hf, hl | ⟨ho, turn, hl⟩⟩
    · exact (h.aborted l failure hold).append _
    · exact ((h.flights f hf).2 l failure hl).append _
    · exact hbroke f hf turn l failure ho hl

theorem Run.brokeDown {c : Caches σ} (hr : Run b p meddles (.initial p c) es s) {l : Loss} {failure : String}
    (h : s.phase = .aborted l failure) : BrokeDown b p meddles (.initial p c) es l := by
  have htraced : Traced b p meddles (.initial p c) es s := by
    refine Run.history (I := Traced b p meddles (.initial p c)) (fun es s e t hr h hs => h.step hr (step_of_step? hs))
      (fun _ _ _ _ h _ => ⟨h.flights, h.aborted⟩) ⟨fun f hf => ?_, nofun⟩ hr
    cases hf
  exact htraced.aborted l failure h

/-- If nothing was cancelled, the end of a build reports no unit as cancelled. -/
theorem State.Kept.close_eq (hp : p.Valid) (hk : s.Kept p b.environment) (hc : s.cancelled = false)
    (hphase : s.phase = .releasing) (hf : s.flights = []) (hs : s.Stuck b p) : s.board.close p = s.board := by
  have ho := hk.orderly (.inl hphase)
  rw [hf] at ho
  refine Board.close_eq hp ho.tracks ?_
  rcases hs with hw | hcancelled | hn
  · have := b.workers_pos
    rw [hf, List.length_nil] at hw
    omega
  · rw [hc] at hcancelled
    cases hcancelled
  · exact hn

theorem State.Kept.exists_bad {env : Environment} (hk : s.Kept p env) (hphase : s.phase = .releasing)
    {n cause : String} (hcause : s.board.causes.find? n = some cause) :
    ∃ r ∈ s.board.results, r.isBad ∧ p.graph.Reaches n r.name := by
  have ho := hk.orderly (.inl hphase)
  rw [ho.accounts.causes] at hcause
  obtain ⟨r, hr, hbad, hreach, -⟩ := Board.exists_bad_of_blame? ho.tracks hcause
  exact ⟨r, hr, hbad, hreach⟩

/-- The remote never answers that a fetch was cancelled. -/
def NeverCancels (b : Backend σ) : Prop := ∀ k remote, (b.fetch k remote).2.result ≠ .error .cancelled

theorem neverCancels_disabled (σ : Type) : NeverCancels (.disabled σ) := by
  intro k remote h
  cases h

/-- No unit is cancelled, at work or in its result. -/
private structure Unhindered (b : Builder σ) (s : State σ) : Prop where
  token : s.cancelled = false
  flights : ∀ f ∈ s.flights, f.stage.Within b.client
    ⟨fun r => r ≠ .error .cancelled, fun _ => True, fun e => e ≠ .cancelled⟩
  results : ∀ r ∈ s.board.results, r.outcome ≠ .cancelled

private theorem Unhindered.work (h : Unhindered b s) (hb : NeverCancels b.client.backend) {f : Flight}
    (hf : f ∈ s.flights) (turn : Turn) :
    (f.work b s.cancelled turn s.caches).stage.Within b.client
      ⟨fun r => r ≠ .error .cancelled, fun _ => True, fun e => e ≠ .cancelled⟩ := by
  have hr : Flight.Respects b s.cancelled turn s.caches f
      ⟨fun r => r ≠ .error .cancelled, fun _ => True, fun e => e ≠ .cancelled⟩ := by
    refine ⟨by simp, hb _ _, by simp [Client.timedOut], fun _ _ _ _ => trivial, fun hc => ?_, by simp,
      by simp, fun _ _ => trivial, by simp, by simp⟩
    rcases hc with hc | hc
    · rw [h.token] at hc
      cases hc
    · exact absurd rfl hc
  exact hr.work (h.flights f hf)

private theorem Unhindered.step (hp : p.Valid) {e : Event} (he : e ≠ .cancel)
    (hb : NeverCancels b.client.backend)
    (hk : s.Kept p b.environment) (h : Unhindered b s) (hs : Step b p s e t) : Unhindered b t := by
  have hflights := hs.flights h.flights (fun _ _ _ _ _ _ => trivial)
    fun f hf turn _ => h.work hb hf turn
  have hnew : ∀ r : UnitResult, r.outcome ≠ .cancelled → ∀ q ∈ s.board.results ++ [r],
    q.outcome ≠ .cancelled :=
    fun r hr q hq => by
      rcases List.mem_append.mp hq with hq | hq
      · exact h.results q hq
      · rwa [List.mem_singleton.mp hq]
  cases hs with
  | finish hphase hf hs =>
    refine ⟨h.token, hflights, ?_⟩
    rw [State.finish, hk.close_eq hp h.token hphase hf hs]
    exact h.results
  | wait | send | lose | work | perish | publish | abort => exact ⟨h.token, hflights, h.results⟩
  | skip => exact ⟨h.token, hflights, hnew _ (by simp [UnitResult.skipped])⟩
  | @join i duration f e hphase hf he' =>
    refine ⟨h.token, hflights, ?_⟩
    have hending := h.flights f (List.mem_of_getElem? hf)
    rw [he'] at hending
    rw [State.join, Board.record, Orderly.results_conclude]
    refine hnew _ fun ho => hending ?_
    cases e with
    | cancelled => rfl
    | localHit | remoteHit | compiled | failed => cases ho
  | cancel => exact absurd rfl he

theorem Run.kept {c : Caches σ} (hp : p.Valid) (hr : Run b p meddles (.initial p c) es s) :
    s.Kept p b.environment :=
  hr.induction (fun _ _ _ _ h hs => h.step hp hs) (fun _ _ h _ => h) (.initial hp b.environment c)

/-- What holds at first and is kept by every step from a state in order holds after every run. -/
theorem Run.induction_kept {I : State σ → Prop} (hp : p.Valid) (hr : Run b p meddles s es t)
    (hstep : ∀ s e t, e ∈ es → s.Kept p b.environment → I s → Step b p s e t → I t)
    (hmeddle : ∀ s c, I s → meddles s.caches c → I { s with caches := c })
    (hk : s.Kept p b.environment) (h0 : I s) : I t := by
  have h : t.Kept p b.environment ∧ I t :=
    hr.induction (I := fun s => s.Kept p b.environment ∧ I s)
      (fun s e t he h hs => ⟨h.1.step hp hs, hstep s e t he h.1 h.2 hs⟩)
      (fun s c h hm => ⟨h.1, hmeddle s c h.2 hm⟩) ⟨hk, h0⟩
  exact h.2

private theorem Run.unhindered {c : Caches σ} (hp : p.Valid) (hr : Run b p meddles (.initial p c) es s)
    (he : .cancel ∉ es) (hb : NeverCancels b.client.backend) : Unhindered b s := by
  refine hr.induction_kept hp (fun s e t hmem hk h hs => ?_)
    (fun s c h _ => ⟨h.token, h.flights, h.results⟩) (.initial hp b.environment c) ⟨rfl, ?_, ?_⟩
  · exact h.step hp (fun hc => he (hc ▸ hmem)) hb hk hs
  · exact fun f hf => absurd hf List.not_mem_nil
  · exact fun r hr => absurd hr List.not_mem_nil

/-- The board of a build that is not cancelled is in order even after its end. -/
theorem Run.orderly {c : Caches σ} (hp : p.Valid) (hr : Run b p meddles (.initial p c) es s)
    (he : .cancel ∉ es)
    (hb : NeverCancels b.client.backend) : ∃ flights, Orderly p b.environment s.board flights := by
  obtain ⟨board, flights, ho, rfl | ⟨hclose, rfl, hn⟩⟩ := (hr.kept hp).exists_orderly
  · exact ⟨flights, ho⟩
  · have hnext : board.next? p = none := hn.resolve_left
      (by rw [(hr.unhindered hp he hb).token]; intro h; cases h)
    rw [hclose, Board.close_eq hp ho.tracks hnext]
    exact ⟨[], ho⟩

theorem State.Kept.once {env : Environment} (hp : p.Valid) (hk : s.Kept p env) :
    s.board.taken.Nodup ∧ (s.board.results.map (·.name)).Nodup := by
  obtain ⟨board, flights, ho, rfl | ⟨hclose, -, -⟩⟩ := hk.exists_orderly
  · exact ⟨ho.tracks.frontier.taken_nodup, ho.tracks.nodup_done⟩
  · rw [hclose]
    have hdone := Board.done_close hp ho.tracks
    exact ⟨ho.tracks.frontier.taken_nodup, hdone.nodup_iff.mpr p.graph.names_nodup⟩

/-- The skipped units are those that depend on a failed one, and each names the first that failed of
these. -/
structure SkipsRightly (sources : List Source) (results : List UnitResult) : Prop where
  uncancelled : ∀ r ∈ results, r.outcome ≠ .cancelled
  skipped_iff : ∀ r ∈ results, r.outcome = .skipped ↔
    ∃ q ∈ results, q.outcome = .failed ∧ Relation.TransGen (DependsOn sources) r.name q.name
  bare : ∀ r ∈ results, r.outcome = .skipped → r.key = none ∧ r.artifact = none
  first : ∀ r ∈ results, r.outcome = .skipped → ∃ before q after, results = before ++ q :: after ∧
    q.outcome = .failed ∧ Relation.TransGen (DependsOn sources) r.name q.name ∧
    r.error = some ("dependency `" ++ q.name ++ "` failed") ∧
    ∀ o ∈ before, o.outcome = .failed → ¬Relation.TransGen (DependsOn sources) r.name o.name

private theorem skipsRightly {env : Environment} {board : Board} {flights : List Flight} (hp : p.Valid)
    (ho : Orderly p env board flights) (hc : ∀ r ∈ board.results, r.outcome ≠ .cancelled) :
    SkipsRightly p.graph.sources board.results := by
  have hreach : Relation.TransGen (DependsOn p.graph.sources) = p.graph.Reaches := by
    rw [Graph.Reaches, hp.needs_eq]
  have hbad : ∀ r ∈ board.results, r.isBad = true ↔ r.outcome = .failed := fun r hr => by
    simp [UnitResult.isBad, hc r hr]
  have hknown : ∀ r ∈ board.results, r.name ∈ p.graph.names := fun r hr =>
    ho.tracks.known (ho.tracks.frontier.done_taken _ (List.mem_map_of_mem hr))
  have hblame : ∀ n, ∀ r ∈ board.results, ∀ cause, r.blame? p.graph n = some cause ↔
      (r.outcome = .failed ∧ p.graph.Reaches n r.name) ∧ cause = r.cause := fun n r hr cause => by
    rw [UnitResult.blame?, Option.ite_none_right_eq_some, hbad r hr,
      Graph.mem_transitiveDependents (hknown r hr), Option.some.injEq, eq_comm (a := cause)]
  refine ⟨hc, fun r hr => ⟨fun h => ?_, fun h => ?_⟩, fun r hr h => ?_, fun r hr h => ?_⟩
  · obtain ⟨cause, hcause, -⟩ := ho.accounts.skipped r hr h
    obtain ⟨q, hq, hqbad, hqr, -⟩ := Board.exists_bad_of_blame? ho.tracks hcause
    rw [hreach]
    exact ⟨q, hq, (hbad q hq).mp hqbad, hqr⟩
  · obtain ⟨q, hq, hf, hqr⟩ := h
    rw [hreach] at hqr
    by_contra hs
    exact Board.blame?_ne_none ho.tracks hq ((hbad q hq).mpr hf) hqr (ho.accounts.worked r hr hs)
  · obtain ⟨cause, -, hrc⟩ := ho.accounts.skipped r hr h
    rw [hrc]
    exact ⟨rfl, rfl⟩
  · obtain ⟨cause, hcause, hrc⟩ := ho.accounts.skipped r hr h
    obtain ⟨before, q, after, hresults, hq, hbefore⟩ := List.findSome?_eq_some_iff.mp hcause
    have hmem : q ∈ board.results := by rw [hresults]; simp
    obtain ⟨⟨hf, hqr⟩, rfl⟩ := (hblame _ q hmem cause).mp hq
    rw [hreach]
    refine ⟨before, q, after, hresults, hf, hqr, ?_, fun o hom hof hor => ?_⟩
    · rw [hrc, UnitResult.skipped, UnitResult.cause, if_pos hf]
    · have hmem' : o ∈ board.results := by rw [hresults]; exact List.mem_append_left _ hom
      have := (hblame r.name o hmem' o.cause).mpr ⟨⟨hof, hor⟩, rfl⟩
      rw [hbefore o hom] at this
      cases this

theorem Run.skipsRightly {c : Caches σ} (hp : p.Valid) (hr : Run b p meddles (.initial p c) es s)
    (he : .cancel ∉ es)
    (hb : NeverCancels b.client.backend) : SkipsRightly p.graph.sources s.board.results := by
  obtain ⟨flights, ho⟩ := hr.orderly hp he hb
  exact Build.skipsRightly hp ho (hr.unhindered hp he hb).results

/-- What holds of a build at every moment. -/
structure Scheduled (b : Builder σ) (p : Plan) (meddles : Caches σ → Caches σ → Prop) (first : State σ)
    (sources : List Source) (es : List Event) (s : State σ) : Prop where
  /-- No unit is released or skipped twice. -/
  taken_nodup : s.board.taken.Nodup
  /-- No unit is recorded twice. -/
  recorded_nodup : (s.board.results.map (·.name)).Nodup
  /-- A result that is recorded finds the counter of every dependent above zero, and lowers it by
  one. -/
  counts : ∀ e t r, s.step? b p e = some t → t.phase = .releasing →
    t.board.results = s.board.results ++ [r] →
    ∀ n, DependsOn sources n r.name →
      ∃ k, s.board.pending.find? n = some (k + 1) ∧ t.board.pending.find? n = some k
  /-- A build that is not over can go on. -/
  continues : s.isOver = false → ∃ e t, e ≠ .cancel ∧ s.step? b p e = some t
  /-- The report of a finished build has one entry for each unit, and that is the one recorded. -/
  reports : s.phase = .finished → ∀ startedAt elapsed, ∃ report, s.report startedAt elapsed = .ok report ∧
    report.results.names.Perm (sources.map (·.name)) ∧
    ∀ r, report.results.find? r.name = some r ↔ r ∈ s.board.results
  /-- Only work that breaks down keeps a build from its report. -/
  aborts : ∀ l failure, s.phase = .aborted l failure → BrokeDown b p meddles first es l

theorem Run.length_le {c : Caches σ} (hp : p.Valid) (hr : Run b p meddles (.initial p c) es s) :
    es.length ≤ State.eventsPerUnit b * p.graph.sources.length + 2 := by
  have hlen := State.length_add_eventsLeft_le hp hr (.initial hp b.environment c)
  rw [State.eventsLeft_initial, hp.perm.length_eq, Graph.names, List.length_map] at hlen
  omega

private theorem counts_step {e : Event} (hk : s.Kept p b.environment) (hs : Step b p s e t)
    {r : UnitResult}
    (hphase : t.phase = .releasing) (hr : t.board.results = s.board.results ++ [r]) {n : String}
    (hn : p.graph.Needs n r.name) :
    ∃ k, s.board.pending.find? n = some (k + 1) ∧ t.board.pending.find? n = some k := by
  have hsame : s.board.results ≠ s.board.results ++ [r] := fun h => by simpa using congrArg List.length h
  have hlower : ∀ flights, Orderly p b.environment s.board flights → r.name ∉ s.board.done →
      t.board.pending = (s.board.pending.release (p.graph.dependents r.name)).1 →
      ∃ k, s.board.pending.find? n = some (k + 1) ∧ t.board.pending.find? n = some k :=
        fun flights ho hd ht => by
    have hmem : n ∈ p.graph.dependents r.name := Graph.mem_dependents.mpr hn
    obtain ⟨k, hk⟩ := ho.tracks.frontier.count_pos hd hmem
    refine ⟨k, hk, ?_⟩
    rw [ht, Countdown.find?_release (p.graph.nodup_dependents _), if_pos hmem, hk]
    rfl
  cases hs with
  | finish => cases hphase
  | wait | send | lose | work | perish | publish | cancel | abort => exact absurd hr hsame
  | @skip m cause hphase hw hc hnext hb =>
    have ho := hk.orderly (.inl hphase)
    have hready := (ho.tracks.frontier.ready_iff m).mp (Board.mem_ready_of_next? hnext)
    obtain rfl : UnitResult.skipped m cause = r :=
      by simpa [State.skip, Board.record, Board.take] using hr
    exact hlower _ ho (fun hd => hready.2.1 (ho.tracks.frontier.done_taken _ hd)) rfl
  | @join i duration f e hwait hf he =>
    have ho := hk.orderly (.inr hwait)
    obtain rfl : State.resultOf f e duration = r := by
      simpa [State.join, Board.record, Orderly.results_conclude] using hr
    refine hlower _ ho (ho.tracks.not_mem_done (List.mem_map_of_mem (List.mem_of_getElem? hf))) ?_
    have hpending : (s.board.conclude p f.name e).pending = s.board.pending := by
      simp only [Board.conclude]
      split <;> rfl
    simp only [State.join, Board.record, hpending]

theorem State.Kept.exists_report (hp : p.Valid) (hk : s.Kept p b.environment)
    (hphase : s.phase = .finished) (startedAt : Timestamp) (elapsed : Duration) :
    ∃ report, s.report startedAt elapsed = .ok report ∧ report.results.names.Perm p.graph.names ∧
      ∀ r, report.results.find? r.name = some r ↔ r ∈ s.board.results := by
  simp only [State.Kept] at hk
  rw [hphase] at hk
  obtain ⟨board, ho, hclose, -, -⟩ := hk
  have hperm : s.board.done.Perm p.graph.names := hclose ▸ Board.done_close hp ho.tracks
  have hentries : (s.board.results.map fun r => (r.name, r)).map (·.1) = s.board.done := by
    simp [Board.done]
  have hnodup : ((s.board.results.map fun r => (r.name, r)).map (·.1)).Nodup := by
    rw [hentries]
    exact hperm.nodup_iff.mpr p.graph.names_nodup
  refine ⟨.ofResults startedAt elapsed s.board.results, ?_, ?_, fun r => ?_⟩
  · rw [State.report, hphase]
  · exact (NameMap.names_ofList hnodup).trans (hentries ▸ hperm)
  · simp only [Report.ofResults, NameMap.find?_ofList hnodup, List.mem_map, Prod.mk.injEq]
    constructor
    · rintro ⟨q, hq, -, rfl⟩
      exact hq
    · intro hr
      exact ⟨r, hr, rfl, rfl⟩

/-- Whatever the caches hold and whatever others do to them, whatever the compiler and the remote
answer, in whichever order work is done, results come and whenever the build is cancelled: builds
end, with one result for each unit, unless the work on a unit breaks down. If nothing is cancelled, the
units skipped are those behind a failure. -/
theorem scheduled (b : Builder σ) (c : Caches σ) {sources : List Source} {p : Plan}
    (hp : Plan.ofSources sources = .ok p) :
    (∀ i turn, ∃ t es, b.build c sources i turn = .ok t ∧ t.isOver = true ∧
      (State.initial p c).steps? b p es = some t) ∧
    ∀ meddles es s, Run b p meddles (.initial p c) es s →
      es.length ≤ State.eventsPerUnit b * sources.length + 2 ∧ Scheduled b p meddles (.initial p c) sources es s ∧
      (.cancel ∉ es → NeverCancels b.client.backend → SkipsRightly sources s.board.results) := by
  refine ⟨fun i turn => ?_, fun meddles es s hr => ?_⟩
  · obtain ⟨t, es, ht, ho, hes, -⟩ := State.build_isOver hp c i turn
    exact ⟨t, es, ht, ho, hes⟩
  obtain ⟨hv, rfl⟩ := Plan.ofSources_ok hp
  have hk := hr.kept hv
  have hboard := hk.once hv
  refine ⟨hr.length_le hv, ⟨hboard.1, hboard.2, ?_, fun ho => State.exists_step? hk ho, ?_,
    fun _ _ => hr.brokeDown⟩, ?_⟩
  · intro e t r ht hphase hresults n hn
    rw [← hv.needs_eq] at hn
    exact counts_step hk (step_of_step? ht) hphase hresults hn
  · exact fun hphase startedAt elapsed => hk.exists_report hv hphase startedAt elapsed
  · exact fun he hb => hr.skipsRightly hv he hb

def edgeless (sources : List Source) (hn : (sources.map (·.name)).Nodup) : Graph :=
  { Graph.empty with
    sources := sources
    names_nodup := hn
    edges_known := fun _ he => absurd he List.not_mem_nil }

/-- Nothing in the local store, and no file on the disk. -/
def emptyCaches : Caches Unit := ⟨⟨.empty, [], none, .empty, ⟨0, 0, 0, 0, 0⟩, ⟨0, none⟩, 0⟩, .initial ()⟩

def rejectingBuilder : Builder Unit :=
  .of (fun s _ => if s.name = "a" then .rejected "type error" else .output []) (.disabled Unit .millisecond)
    (.ofVersions "OTP-27" "0.1.0") 1

def pair : List Source := [⟨"a", [], []⟩, ⟨"b", [], ["a", "a"]⟩]

def pairPlan : Plan := ⟨⟨pair, [("b", "a")], by decide, by decide, by decide⟩, ["a", "b"]⟩

def pairEvents : List Event :=
  [.release, .work 0 (.plain 0), .work 0 (.plain 0), .work 0 (.plain 0), .release, .join 0 0, .release, .release]

theorem scheduled_pair : Plan.ofSources pair = .ok pairPlan ∧ ∃ s : State Unit,
    (State.initial pairPlan emptyCaches).steps? rejectingBuilder pairPlan pairEvents = some s ∧
      s.phase = .finished ∧
      Scheduled rejectingBuilder pairPlan (fun _ _ => False) (.initial pairPlan emptyCaches) pair pairEvents s ∧
      SkipsRightly pair s.board.results := by
  have hp : Plan.ofSources pair = .ok pairPlan := by cbv
  have hphase :
      ((State.initial pairPlan emptyCaches).steps? rejectingBuilder pairPlan pairEvents).map (·.phase)
      = some .finished := by decide +kernel
  obtain ⟨s, hs, hfinished⟩ := Option.map_eq_some_iff.mp hphase
  have hr : Run rejectingBuilder pairPlan (fun _ _ => False)
    (.initial pairPlan emptyCaches) pairEvents s :=
    .of_steps? hs
  have h := (scheduled rejectingBuilder emptyCaches hp).2 _ pairEvents s hr
  exact ⟨hp, s, hs, hfinished, h.2.1, h.2.2 (by decide) (neverCancels_disabled Unit)⟩

/-- A remote that is down, and retries whose second delay would be negative. -/
def hopelessBuilder : Builder Unit where
  compiler _ _ := .output []
  client := {
    backend.name := "down"
    backend.fetch _ _ := ((), ⟨.error (.transport "down" "connection reset"), some 0⟩)
    backend.publish _ _ _ := ((), ⟨.ok (), some 0⟩)
    policy := ⟨3, 1000000, .finite true 0x10000000000000 (-51), 5000000, false⟩
    timeout := 500000000
    enabled := true
    timer := .millisecond }
  environment := .ofVersions "OTP-27" "0.1.0"
  workers := 1
  workers_pos := Nat.one_pos

def lone : List Source := [⟨"a", [], []⟩]

def lonePlan : Plan := ⟨edgeless lone (by decide), ["a"]⟩

theorem hopeless_aborts :
    ∃ s, hopelessBuilder.build emptyCaches lone .never (.plain 0) = .ok s ∧
      s.phase = .aborted .retry "the task panicked" := by
  have hp : Plan.ofSources lone = .ok lonePlan := by cbv
  refine ⟨_, by rw [Builder.build, hp], ?_⟩
  decide +kernel

/-- A retry without a delay ends the build, and there is no report. -/
theorem no_report_without_delay : ∃ s, hopelessBuilder.build emptyCaches lone .never (.plain 0) = .ok s ∧
    s.isOver = true ∧ ∀ startedAt elapsed, s.report startedAt elapsed = .error (.task "the task panicked") := by
  obtain ⟨s, hs, haborted⟩ := hopeless_aborts
  exact ⟨s, hs, by simp [State.isOver, haborted], fun _ _ => by rw [State.report, haborted]; rfl⟩

end Build
end BuildCache
