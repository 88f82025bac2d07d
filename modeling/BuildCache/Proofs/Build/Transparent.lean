import BuildCache.Proofs.Build.Sound
import BuildCache.Proofs.Build.Verdict

/-! # Transparency: caches and schedules do not show in what a build makes of its units -/
namespace BuildCache

variable {σ : Type}

/-- Data are right for a key if every unit with that key is built to them. -/
def Plan.Right (p : Plan) (env : Environment) (compile : PayloadCompiler) (k : CacheKey)
    (data : Bytes) : Prop :=
  ∀ s ∈ p.graph.sources, (p.keys env).find? s.name = some k →
    (p.verdicts compile).find? s.name = some (.built data)

theorem Plan.Valid.right {p : Plan} {env : Environment} {compile : PayloadCompiler} (hp : p.Valid)
    (hfree : CollisionFree (Hashed p.graph.sources env)) (hsize : Countable p.graph.sources)
    (henv : env.Countable) {s : Source} (hs : s ∈ p.graph.sources) {k : CacheKey}
    (hk : (p.keys env).find? s.name = some k) {data : Bytes}
    (hv : (p.verdicts compile).find? s.name = some (.built data)) : p.Right env compile k data := by
  intro t ht hkt
  rw [← hv]
  exact (hp.verdict_congr hfree hsize henv hs ht (hk.trans hkt.symm)).symm

/-- A result says what the verdict is, and the artifact on the board is what was to be built. -/
def Verdict.ShownBy (b : Board) (r : UnitResult) : Verdict → Prop
  | built data => r.outcome.isSuccess = true ∧
      ∃ a, b.artifacts.find? r.name = some a ∧ r.artifact = some a.ref ∧ a.data = data
  | failed message => r.outcome = .failed ∧ r.error = some message
  | skipped => r.outcome = .skipped

namespace Build

variable {b : Builder σ} {p : Plan} {compile : PayloadCompiler} {honest : σ → Prop}
  {s t : State σ} {es : List Event}

/-- A unit is sent off with the artifacts that make the compiler come to its verdict. -/
theorem Orderly.verdict_eq {env : Environment} {board : Board} {flights : List Flight} (hp : p.Valid)
    (ho : Orderly p env board flights)
    (ha : ∀ n a, board.artifacts.find? n = some a → (p.verdicts compile).find? n = some (.built a.data))
    {n : String} {source : Source} (hn : n ∈ board.ready) (hc : board.causes.find? n = none)
    (hs : p.graph.find? n = some source) :
    (p.verdicts compile).find? n
      = some (.ofExcept (compile source.content (Artifact.payloads (board.dependencyArtifacts source)))) := by
  have hb : board.blame? p n = none := (ho.accounts.causes n).symm.trans hc
  have howed := ((ho.tracks.frontier.ready_iff n).mp hn).2.2
  have hbuilt : ∀ d ∈ source.distinctDependencies, ∃ a, board.artifacts.find? d = some a ∧
      (p.verdicts compile).find? d = some (.built a.data) := fun d hd => by
    have hneed : p.graph.Needs n d := (hp.needs_iff hs).mpr (Source.mem_distinctDependencies.mp hd)
    obtain ⟨-, r, hr, rfl, hbad, hskip⟩ := ho.needs_well howed hb hneed
    obtain ⟨a, hfind, -⟩ := ho.stocked.present r hr hbad hskip
    exact ⟨a, hfind, ha _ a hfind⟩
  have hall :
      ((p.verdicts compile).select source.distinctDependencies).all (·.2.data?.isSome) = true := by
    apply List.all_eq_true.mpr
    intro e he
    obtain ⟨hmem, hfind⟩ := NameMap.mem_select.mp he
    obtain ⟨a, -, hv⟩ := hbuilt e.1 hmem
    rw [hfind, Option.some.injEq] at hv
    rw [hv]
    rfl
  rw [hp.verdict_eq hs, Verdict.judge, if_pos hall,
    Verdict.payloads_select source.nodup_distinctDependencies hbuilt]
  rfl

end Build

/-- What the stages of a unit may show: nothing but what is right for its key, and no failure but
its verdict. -/
def Flight.limits (p : Plan) (env : Environment) (compile : PayloadCompiler) (f : Flight) :
    Stage.Limits where
  answer result := ∀ raw a, result = .ok (some raw) → Artifact.parse f.key raw = .ok a →
    p.Right env compile f.key a.data
  artifact a := a.key = f.key ∧ p.Right env compile f.key a.data
  ending
    | .localHit a | .remoteHit a | .compiled a => a.key = f.key ∧ p.Right env compile f.key a.data
    | .failed message => (p.verdicts compile).find? f.name = some (.failed message)
    | .cancelled => True

theorem Flight.respects_limits {b : Builder σ} {p : Plan} {compile : PayloadCompiler}
    {honest : σ → Prop} (hp : p.Valid) (hcompile : b.compiler = .ofPayloads compile)
    (hfree : CollisionFree (Hashed p.graph.sources b.environment)) (hsize : Countable p.graph.sources)
    (henv : b.environment.Countable)
    (hb : b.client.backend.Honest (p.Right b.environment compile) honest) {c : Caches σ}
    (hc : c.Sound (p.Right b.environment compile) honest) {f : Flight} (hf : Board.Sent p b.environment f)
    (hv : (p.verdicts compile).find? f.name
      = some (.ofExcept (compile f.source.content (Artifact.payloads f.dependencies))))
    (cancelled : Bool) (turn : Build.Turn) :
    Respects b cancelled turn c f (f.limits p b.environment compile) where
  hit a h := by
    obtain ⟨raw, hfile, hdecode⟩ := Store.get_some h
    exact ⟨Artifact.key_of_parse hdecode, hc.store f.key raw a hfile hdecode⟩
  answers raw a := hb.answers f.key _ raw a hc.remote
  times := fun raw a h => by cases h
  decodes raw a h hdecode := ⟨Artifact.key_of_parse hdecode, h raw a rfl hdecode⟩
  cancels _ := trivial
  adopts a h := h
  keeps a h := h
  output data h := by
    rw [hcompile] at h
    rw [Compilation.ofExcept_eq_output.mp h] at hv
    exact ⟨rfl, hp.right hfree hsize henv (Graph.find?_eq_some.mp hf.source).1 hf.key hv⟩
  rejects message h := by
    rw [hcompile] at h
    rw [Compilation.ofExcept_eq_rejected.mp h] at hv
    exact hv
  crashes h := by
    rw [hcompile] at h
    exact absurd h (Compilation.ofExcept_ne_crashed _)

namespace Build

variable {b : Builder σ} {p : Plan} {compile : PayloadCompiler} {honest : σ → Prop}
  {s t : State σ} {es : List Event}

/-- All that a build has come to, and all that it has yet to store or to publish, agrees with the
verdicts. -/
structure Faithful (b : Builder σ) (p : Plan) (compile : PayloadCompiler) (honest : σ → Prop)
    (s : State σ) : Prop where
  caches : s.caches.Sound (p.Right b.environment compile) honest
  flights : ∀ f ∈ s.flights, f.stage.Within b.client (f.limits p b.environment compile) ∧
    (p.verdicts compile).find? f.name = some (.ofExcept (compile f.source.content (Artifact.payloads f.dependencies)))
  artifacts : ∀ n a, s.board.artifacts.find? n = some a →
    (p.verdicts compile).find? n = some (.built a.data)
  failures : ∀ r ∈ s.board.results, r.outcome = .failed →
    ∃ message, r.error = some message ∧ (p.verdicts compile).find? r.name = some (.failed message)
  publications : ∀ q ∈ s.publications, p.Right b.environment compile q.artifact.key q.artifact.data

/-- The result of a unit agrees with its verdict if its ending is within limits. -/
theorem Faithful.join (h : Faithful b p compile honest s) (hk : s.Kept p b.environment) {i : Nat}
    {f : Flight} {e : Ending}
    (hf : s.flights[i]? = some f) (he : f.stage = .ended e) (duration : Duration) :
    Faithful b p compile honest (s.join b p i f e duration) := by
  have hmem := List.mem_of_getElem? hf
  have hsent := hk.sent hmem
  have hsource : f.source ∈ p.graph.sources := (Graph.find?_eq_some.mp hsent.source).1
  have hending : (f.limits p b.environment compile).ending e := by
    have := (h.flights f hmem).1
    rwa [he] at this
  refine ⟨h.caches, fun g hg => h.flights g (List.mem_of_mem_eraseIdx hg), fun n a ha => ?_,
    fun r hr ho => ?_, fun q hq => ?_⟩
  · rw [State.join, Board.record, Orderly.artifacts_conclude] at ha
    split at ha
    · next hn =>
      subst hn
      cases e with
      | localHit a' | remoteHit a' | compiled a' =>
        cases ha
        exact hending.2 f.source hsource hsent.key
      | failed message => exact h.artifacts _ a ha
      | cancelled => exact h.artifacts _ a ha
    · exact h.artifacts n a ha
  · rw [State.join, Board.record, Orderly.results_conclude] at hr
    rcases List.mem_append.mp hr with hr | hr
    · exact h.failures r hr ho
    · rw [List.mem_singleton] at hr
      subst hr
      cases e with
      | failed message => exact ⟨message, rfl, hending⟩
      | localHit | remoteHit | compiled | cancelled => cases ho
  · rcases List.mem_append.mp hq with hq | hq
    · exact h.publications q hq
    · cases e with
      | compiled a =>
        simp only [State.published, List.mem_ite_nil_right, List.mem_singleton] at hq
        rw [hq.2]
        exact hending.1 ▸ hending.2
      | localHit | remoteHit | failed | cancelled => cases hq

theorem Faithful.step (hp : p.Valid) (hcompile : b.compiler = .ofPayloads compile)
    (hfree : CollisionFree (Hashed p.graph.sources b.environment)) (hsize : Countable p.graph.sources)
    (henv : b.environment.Countable) (hb : b.client.backend.Honest (p.Right b.environment compile) honest)
    {e : Event}
    (hk : s.Kept p b.environment) (h : Faithful b p compile honest s) (hs : Step b p s e t) :
    Faithful b p compile honest t := by
  have hrespects : ∀ f ∈ s.flights, ∀ turn,
      Flight.Respects b s.cancelled turn s.caches f (f.limits p b.environment compile) := fun f hf turn =>
    Flight.respects_limits hp hcompile hfree hsize henv hb h.caches (hk.sent hf) (h.flights f hf).2 s.cancelled turn
  have hflights := hs.flights h.flights
    (fun n source hphase hn hc hs => by
      have ho := hk.orderly (.inl hphase)
      have hname : (s.flightOf b n source).name = n := (Graph.find?_eq_some.mp hs).2
      refine ⟨trivial, ?_⟩
      rw [hname]
      exact ho.verdict_eq hp h.artifacts (Board.mem_ready_of_next? hn) hc hs)
    fun f hf turn _ => ⟨(hrespects f hf turn).work (h.flights f hf).1, (h.flights f hf).2⟩
  have hsound {i : Nat} {f : Flight} (hf : s.flights[i]? = some f) (turn : Turn) :
      (f.work b s.cancelled turn s.caches).caches.Sound (p.Right b.environment compile) honest := by
    refine Flight.sound_work hb h.caches (fun a ha => ?_) s.cancelled turn
    have hwithin := (h.flights f (List.mem_of_getElem? hf)).1
    rcases ha with ha | ha <;>
    · rw [ha] at hwithin
      exact hwithin.2
  cases hs with
  | finish hphase hf hs =>
    refine ⟨⟨(Store.Shrinks.saveIndex s.caches.store).sound h.caches.store, h.caches.remote⟩,
      hflights, h.artifacts, fun r hr ho => ?_, h.publications⟩
    rcases List.mem_append.mp hr with hr | hr
    · exact h.failures r hr ho
    · obtain ⟨n, -, rfl⟩ := List.mem_map.mp hr
      cases ho
  | wait | send | lose | abort | cancel => exact ⟨h.caches, hflights, h.artifacts, h.failures,
    h.publications⟩
  | skip =>
    refine ⟨h.caches, hflights, h.artifacts, fun r hr ho => ?_, h.publications⟩
    rcases List.mem_append.mp hr with hr | hr
    · exact h.failures r hr ho
    · rw [List.mem_singleton] at hr
      subst hr
      cases ho
  | work hf ho => exact ⟨hsound hf _, hflights, h.artifacts, h.failures, h.publications⟩
  | perish hf ho hl =>
    exact ⟨hsound hf _, hflights, h.artifacts, h.failures, fun q hq => absurd hq List.not_mem_nil⟩
  | join hphase hf he => exact h.join hk hf he _
  | @publish i turn q hq =>
    have hright := h.publications q (List.mem_of_getElem? hq)
    refine ⟨⟨h.caches.store, Publication.honest_step hb h.caches.remote hright s.cancelled turn⟩,
      hflights, h.artifacts, h.failures, fun q' hq' => ?_⟩
    simp only [State.publish] at hq'
    cases hnext : (q.step b s.cancelled turn s.caches.remote).2 with
    | none =>
      rw [hnext] at hq'
      exact h.publications q' (List.mem_of_mem_eraseIdx hq')
    | some next =>
      rw [hnext] at hq'
      rcases List.mem_or_eq_of_mem_set hq' with hq' | rfl
      · exact h.publications q' hq'
      · rwa [Publication.artifact_step hnext]

/-- Every result of a build that is not cancelled shows the verdict on its unit. -/
theorem Faithful.shown (hp : p.Valid) (h : Faithful b p compile honest s) {flights : List Flight}
    (ho : Orderly p b.environment s.board flights) (hs : SkipsRightly p.graph.sources s.board.results)
    {r : UnitResult} (hr : r ∈ s.board.results) : ∃ v, (p.verdicts compile).find? r.name = some v ∧
      v.ShownBy s.board r := by
  by_cases hskip : r.outcome = .skipped
  · obtain ⟨q, hq, hfailed, hreach⟩ := (hs.skipped_iff r hr).mp hskip
    obtain ⟨message, -, hv⟩ := h.failures q hq hfailed
    rw [← hp.needs_eq] at hreach
    have hknown := ho.tracks.known (ho.tracks.frontier.done_taken _ (List.mem_map_of_mem hr))
    exact ⟨.skipped, (hp.verdict_skipped_iff hknown).mpr ⟨q.name, message, hreach, hv⟩, hskip⟩
  · by_cases hfailed : r.outcome = .failed
    · obtain ⟨message, herror, hv⟩ := h.failures r hr hfailed
      exact ⟨_, hv, hfailed, herror⟩
    · have hbad : ¬r.isBad := by simp [UnitResult.isBad, hfailed, hs.uncancelled r hr]
      obtain ⟨a, ha, href, hsuccess⟩ := ho.stocked.present r hr hbad hskip
      exact ⟨_, h.artifacts r.name a ha, hsuccess, a, ha, href, rfl⟩

/-- What holds at every moment of a build that is not cancelled. -/
structure Transparent (b : Builder σ) (p : Plan) (compile : PayloadCompiler) (meddles : Caches σ → Caches σ → Prop)
    (first : State σ) (sources : List Source) (es : List Event) (s : State σ) : Prop where
  /-- A build that is not over can go on. -/
  continues : s.isOver = false → ∃ e t, e ≠ .cancel ∧ s.step? b p e = some t
  /-- The report of a finished build shows the verdict on every unit. -/
  reports : s.phase = .finished → ∀ startedAt elapsed, ∃ report, s.report startedAt elapsed = .ok report ∧
    report.results.names.Perm (sources.map (·.name)) ∧
    ∀ u ∈ sources, ∃ r v, report.results.find? u.name = some r ∧
      (p.verdicts compile).find? u.name = some v ∧
      v.ShownBy s.board r
  /-- Only work that breaks down keeps a build from its report. -/
  aborts : ∀ l failure, s.phase = .aborted l failure → BrokeDown b p meddles first es l

private theorem Faithful.initial {c : Caches σ} (hc : c.Sound (p.Right b.environment compile) honest) :
    Faithful b p compile honest (.initial p c) := by
  refine ⟨⟨hc.store, hc.remote⟩, fun f hf => ?_, fun n a ha => ?_, fun r hr => ?_, fun q hq => ?_⟩
  · cases hf
  · cases ha
  · cases hr
  · cases hq

/-- Whatever the store holds, loses or cannot do and whatever the remote answers, in whichever order
work is done: as long as nothing that decodes for a key is wrong for it, a build that is not
cancelled ends, and reports of each unit what compiling all units afresh makes of it, unless the work on
a unit breaks down. -/
theorem transparent {c : Caches σ} {sources : List Source} (hp : Plan.ofSources sources = .ok p)
    (hcompile : b.compiler = .ofPayloads compile) (hfree : CollisionFree (Hashed sources b.environment))
    (hsize : Countable sources) (henv : b.environment.Countable)
    (hb : b.client.backend.Honest (p.Right b.environment compile) honest)
    (hn : NeverCancels b.client.backend) (hc : c.Sound (p.Right b.environment compile) honest) :
    (∀ turn, ∃ t es, b.build c sources .never turn = .ok t ∧ t.isOver = true ∧ .cancel ∉ es ∧
      (State.initial p c).steps? b p es = some t) ∧
    let meddles := fun (_ c' : Caches σ) => c'.Sound (p.Right b.environment compile) honest
    ∀ es s, Run b p meddles (.initial p c) es s → .cancel ∉ es →
      es.length ≤ State.eventsPerUnit b * sources.length + 2 ∧
        Transparent b p compile meddles (.initial p c) sources es s := by
  refine ⟨fun turn => ?_, fun es s hr he => ?_⟩
  · obtain ⟨t, es, ht, ho, hes, hcancel⟩ := State.build_isOver hp c .never turn
    exact ⟨t, es, ht, ho, hcancel rfl, hes⟩
  obtain ⟨hv, rfl⟩ := Plan.ofSources_ok hp
  have hk := hr.kept hv
  have hfaithful : s.Kept p b.environment ∧ Faithful b p compile honest s := by
    refine hr.induction (I := fun s => s.Kept p b.environment ∧ Faithful b p compile honest s)
      (fun s e t _ h hs => ⟨h.1.step hv hs, h.2.step hv hcompile hfree hsize henv hb h.1 hs⟩)
      (fun s c' h hc' => ⟨h.1, hc', h.2.flights, h.2.artifacts, h.2.failures, h.2.publications⟩)
      ⟨?_, .initial hc⟩
    exact .initial hv b.environment c
  obtain ⟨flights, ho⟩ := hr.orderly hv he hn
  refine ⟨hr.length_le hv, fun ho => State.exists_step? hk ho, fun hphase startedAt elapsed =>
    ?_, fun _ _ => hr.brokeDown⟩
  obtain ⟨report, hreport, hnames, hresults⟩ := hk.exists_report hv hphase startedAt elapsed
  refine ⟨report, hreport, hnames, fun u hu => ?_⟩
  obtain ⟨r, hr'⟩ := NameMap.mem_names.mp (hnames.mem_iff.mpr (List.mem_map_of_mem hu))
  obtain ⟨hmem, hname⟩ := State.mem_results_of_report hreport hr'
  obtain ⟨v, hverdict, hshown⟩ := hfaithful.2.shown hv ho (hr.skipsRightly hv he hn) hmem
  exact ⟨r, v, hr', hname ▸ hverdict, hshown⟩

theorem emptyCaches_sound (right : CacheKey → Bytes → Prop) : emptyCaches.Sound right fun _ => True where
  store k content a hf := by cases hf
  remote := trivial

/-- Two units with one key, an empty store and no remote. -/
theorem transparent_twins : ∃ s : State Unit,
    acceptingBuilder.build emptyCaches twins .never (.plain 0) = .ok s ∧
    s.phase = .finished ∧ ∃ es, Transparent acceptingBuilder twinsPlan (fun _ _ => .ok [])
      (fun _ c => c.Sound (twinsPlan.Right acceptingBuilder.environment fun _ _ => .ok []) fun _ => True)
      (.initial twinsPlan emptyCaches) twins es s := by
  have hp : Plan.ofSources twins = .ok twinsPlan := by cbv
  have hfree : CollisionFree (Hashed twins acceptingBuilder.environment) :=
    .of_bare fun x hx => Hashed.eq_of_bare (by decide) hx
  have hb : acceptingBuilder.client.backend.Honest
      (twinsPlan.Right acceptingBuilder.environment fun _ _ => .ok []) fun _ => True :=
    .of_silent fun _ _ _ h => by cases h
  obtain ⟨hbuild, hruns⟩ := transparent hp rfl hfree (by decide +kernel) countable_environment hb
    (neverCancels_disabled Unit) (emptyCaches_sound _)
  obtain ⟨s, es, hs, -, he, hes⟩ := hbuild (.plain 0)
  refine ⟨s, hs, ?_, es, (hruns es s (.of_steps? hes) he).2⟩
  rw [Builder.build, hp] at hs
  cases hs
  decide +kernel

/-- Nothing is wrong in any cache, and the one unit could be built, but a retry without a delay ends
the build. -/
theorem no_verdict_without_delay : Plan.ofSources lone = .ok lonePlan ∧
    hopelessBuilder.compiler = .ofPayloads (fun _ _ => .ok []) ∧
    (lonePlan.verdicts fun _ _ => .ok []).find? "a" = some (.built []) ∧
    hopelessBuilder.client.backend.Honest (fun _ _ => False) (fun _ => True) ∧
    NeverCancels hopelessBuilder.client.backend ∧ emptyCaches.Sound (fun _ _ => False) (fun _ => True) ∧
    ∃ s, hopelessBuilder.build emptyCaches lone .never (.plain 0) = .ok s ∧ s.isOver = true ∧
      ∀ startedAt elapsed, s.report startedAt elapsed = .error (.task "the task panicked") := by
  have hb : hopelessBuilder.client.backend.Honest (fun _ _ => False) (fun _ => True) :=
    .of_silent fun _ _ _ h => by cases h
  have hnever : NeverCancels hopelessBuilder.client.backend := fun _ _ h => by cases h
  obtain ⟨s, hs, haborted⟩ := hopeless_aborts
  refine ⟨by cbv, rfl, by decide, hb, hnever, emptyCaches_sound _, s, hs, ?_, fun _ _ => ?_⟩
  · simp [State.isOver, haborted]
  · rw [State.report, haborted]
    rfl

end Build
end BuildCache
