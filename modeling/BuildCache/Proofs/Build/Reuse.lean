import BuildCache.Proofs.Build.Stored

/-! # Incremental builds: what is unchanged since an earlier build comes from the store -/
namespace BuildCache

variable {σ τ : Type}

theorem Store.Holds.eq {store : Store} {k : CacheKey} {a a' : Artifact} (h : store.Holds k a)
    (h' : store.Holds k a') : a = a' :=
  Option.some.inj (Result.ok.inj (h.symm.trans h'))

/-- For a unit and for all that it depends on, a store holds artifacts. -/
def Plan.Warm (p : Plan) (env : Environment) (store : Store) (n : String) : Prop :=
  ∀ m, Relation.ReflTransGen p.graph.Needs n m →
    ∃ k a, (p.keys env).find? m = some k ∧ store.Holds k a

theorem Plan.Warm.reaches {p : Plan} {env : Environment} {store : Store} {n d : String}
    (h : p.Warm env store n) (hd : p.graph.Reaches n d) : p.Warm env store d :=
  fun m hm => h m (hd.to_reflTransGen.trans hm)

theorem Plan.Warm.holds {p : Plan} {env : Environment} {store : Store} {n : String} {k : CacheKey}
    (h : p.Warm env store n) (hk : (p.keys env).find? n = some k) : ∃ a, store.Holds k a := by
  obtain ⟨l, a, hl, ha⟩ := h n .refl
  rw [hk, Option.some.injEq] at hl
  exact ⟨a, hl ▸ ha⟩

/-- Some unit is reported with a key. -/
def Report.HasKey (report : Report) (k : CacheKey) : Prop :=
  ∃ n r, report.results.find? n = some r ∧ r.key = some k

theorem Report.isSuccess_of_find? {report : Report} (h : report.isSuccess = true) {n : String}
    {r : UnitResult} (hr : report.results.find? n = some r) : r.outcome.isSuccess = true :=
  List.all_eq_true.mp h r (List.mem_map_of_mem (NameMap.find?_eq_some.mp hr))

/-- Every unit is one of some others, though its dependencies may come in another order or repeated. -/
def Rearranged (sources others : List Source) : Prop :=
  ∀ u ∈ sources, ∃ v ∈ others, v.name = u.name ∧ u.content = v.content ∧
    ∀ d, d ∈ u.dependencies ↔ d ∈ v.dependencies

theorem Rearranged.sameClosure {p : Plan} (hp : p.Valid) {others : List Source}
    (h : Rearranged p.graph.sources others) {n : String} (hn : n ∈ p.graph.names) :
    SameClosure p.graph.sources others n := by
  induction n using hp.acyclic.induction with
  | _ n ih =>
    obtain ⟨u, hfind, rfl⟩ := Graph.exists_find? hn
    have hu := (Graph.find?_eq_some.mp hfind).1
    obtain ⟨v, hv, hname, hcontent, hnames⟩ := h u hu
    refine .same hu hv hname hcontent hnames fun d hd => ?_
    have hneeds := (hp.needs_iff hfind).mpr hd
    exact ih d hneeds hneeds.right_mem

namespace Build

variable {b : Builder σ} {p : Plan} {place : Path} {first : Store} {s t : State σ} {e : Event}
  {es : List Event}

/-- The result of a unit that came from the local store. -/
def hitResult (n : String) (k : CacheKey) (a : Artifact) (duration : Duration) : UnitResult :=
  ⟨n, .localHit, duration, some k, some a.ref, none⟩

/-- Warm units come from the store; whatever else is done has to do with one that is not warm. -/
structure Reusing (b : Builder σ) (p : Plan) (first : Store) (s : State σ) : Prop where
  token : s.cancelled = false
  flights : ∀ f ∈ s.flights, p.Warm b.environment first f.name →
    f.stage = .lookup ∨ ∃ a, first.Holds f.key a ∧ f.stage = .ended (.localHit a)
  results : ∀ r ∈ s.board.results, p.Warm b.environment first r.name →
    ∃ k a d, (p.keys b.environment).find? r.name = some k ∧ first.Holds k a ∧ r = hitResult r.name k a d ∧
      s.board.artifacts.find? r.name = some a
  compilations : ∀ n ∈ s.compilations.map (·.1), n ∈ p.graph.names ∧ ¬p.Warm b.environment first n
  publications : s.publications ≠ [] → ∃ n ∈ p.graph.names, ¬p.Warm b.environment first n
  aborted : ∀ l failure, s.phase = .aborted l failure → ∃ n ∈ p.graph.names, ¬p.Warm b.environment first n

namespace Reusing

theorem initial (c : Caches σ) : Reusing b p first (.initial p c) where
  token := rfl
  flights _ hf := absurd hf List.not_mem_nil
  results _ hr := absurd hr List.not_mem_nil
  compilations _ hn := absurd hn List.not_mem_nil
  publications h := absurd rfl h
  aborted := nofun

private theorem stage_eq (h : Reusing b p first s) {f : Flight} (hf : f ∈ s.flights)
    (hw : p.Warm b.environment first f.name) (ho : f.stage.isOver = false) : f.stage = .lookup := by
  refine (h.flights f hf hw).resolve_right ?_
  rintro ⟨a, -, he⟩
  rw [he] at ho
  cases ho

private theorem ended_eq (h : Reusing b p first s) {f : Flight} (hf : f ∈ s.flights)
    (hw : p.Warm b.environment first f.name) {g : Ending} (hg : f.stage = .ended g) :
    ∃ a, first.Holds f.key a ∧ g = .localHit a := by
  rcases h.flights f hf hw with hlookup | ⟨a, ha, hhit⟩
  · rw [hg] at hlookup
    cases hlookup
  · exact ⟨a, ha, Stage.ended.inj (hg.symm.trans hhit)⟩

private theorem not_warm_of_skip (h : Reusing b p first s) (hk : s.Kept p b.environment) {n cause : String}
    (hphase : s.phase = .releasing) (hcause : s.board.causes.find? n = some cause) :
    ¬p.Warm b.environment first n := by
  intro hw
  obtain ⟨r, hr, hbad, hreach⟩ := hk.exists_bad hphase hcause
  obtain ⟨k, a, d, -, -, he, -⟩ := h.results r hr (hw.reaches hreach)
  rw [he] at hbad
  cases hbad

private theorem ended_of_work (h : Reusing b p first s) (hk : s.Kept p b.environment)
    (hstored : Stored b place first s) {f : Flight} (hf : f ∈ s.flights) (hw : p.Warm b.environment first f.name)
    (ho : f.stage.isOver = false) (turn : Turn) :
    ∃ a, first.Holds f.key a ∧ (f.work b s.cancelled turn s.caches).stage = .ended (.localHit a) := by
  obtain ⟨a, ha⟩ := hw.holds (hk.sent hf).key
  refine ⟨a, ha, ?_⟩
  simp only [Flight.work, h.stage_eq hf hw ho]
  exact Flight.stage_lookup.mpr (hstored.holds f.key a ha)

private theorem flights_step (h : Reusing b p first s) (hk : s.Kept p b.environment)
    (hstored : Stored b place first s) (hs : Step b p s e t) :
    ∀ f ∈ t.flights, p.Warm b.environment first f.name →
      f.stage = .lookup ∨ ∃ a, first.Holds f.key a ∧ f.stage = .ended (.localHit a) := by
  refine hs.flights h.flights (fun _ _ _ _ _ _ _ => .inl rfl) fun f hf turn ho hw => .inr ?_
  exact h.ended_of_work hk hstored hf hw ho turn

private theorem results_step (hp : p.Valid) (h : Reusing b p first s) (hk : s.Kept p b.environment)
    (hs : Step b p s e t) : ∀ r ∈ t.board.results, p.Warm b.environment first r.name →
    ∃ k a d, (p.keys b.environment).find? r.name = some k ∧ first.Holds k a ∧ r = hitResult r.name k a d ∧
      t.board.artifacts.find? r.name = some a := by
  intro r hr hw
  have hold : r ∈ s.board.results → ∃ k a d, (p.keys b.environment).find? r.name = some k ∧
      first.Holds k a ∧ r = hitResult r.name k a d ∧ t.board.artifacts.find? r.name = some a := fun hr => by
    obtain ⟨k, a, d, hkey, hheld, he, ha⟩ := h.results r hr hw
    exact ⟨k, a, d, hkey, hheld, he, hs.artifacts_subset hk ha⟩
  rcases hs.results_new hr with hr | ⟨hphase, hf, hstuck, rfl, -⟩ | ⟨hphase, n, cause, hcause, rfl⟩ |
    ⟨i, duration, f, g, hf, hg, rfl, rfl⟩
  · exact hold hr
  · rw [State.finish, hk.close_eq hp h.token hphase hf hstuck] at hr
    exact hold hr
  · exact absurd hw (h.not_warm_of_skip hk hphase hcause)
  · have hmem := List.mem_of_getElem? hf
    obtain ⟨a, hheld, rfl⟩ := h.ended_eq hmem hw hg
    refine ⟨f.key, a, duration, (hk.sent hmem).key, hheld, rfl, ?_⟩
    rw [State.join, Board.record, Orderly.artifacts_conclude]
    exact if_pos rfl

private theorem compilations_step (h : Reusing b p first s) (hk : s.Kept p b.environment)
    (hs : Step b p s e t) :
    ∀ n ∈ t.compilations.map (·.1), n ∈ p.graph.names ∧ ¬p.Warm b.environment first n := by
  rcases hs.compilations with hsame | ⟨i, turn, f, rfl, hf, hcompile, hmore⟩
  · rw [hsame]
    exact h.compilations
  · intro n hn
    rw [hmore, List.map_append, List.mem_append] at hn
    refine hn.elim (h.compilations n) fun hn => ?_
    have hmem := List.mem_of_getElem? hf
    rw [List.map_singleton, List.mem_singleton] at hn
    subst hn
    refine ⟨Graph.mem_names_of_find? (hk.sent hmem).source, fun hw => ?_⟩
    have := h.stage_eq hmem hw (by rw [hcompile]; rfl)
    rw [hcompile] at this
    cases this

private theorem publications_step (h : Reusing b p first s) (hk : s.Kept p b.environment)
    (hs : Step b p s e t) (hne : t.publications ≠ []) :
    ∃ n ∈ p.graph.names, ¬p.Warm b.environment first n := by
  cases hs with
  | finish | wait | skip | send | lose | work | abort | cancel => exact h.publications hne
  | perish => exact absurd rfl hne
  | @join i duration f g hphase hf hg =>
    have hmem := List.mem_of_getElem? hf
    by_cases hold : s.publications = []
    · refine ⟨f.name, Graph.mem_names_of_find? (hk.sent hmem).source, fun hw => hne ?_⟩
      obtain ⟨a, -, rfl⟩ := h.ended_eq hmem hw hg
      rw [State.join, hold]
      rfl
    · exact h.publications hold
  | publish hq =>
    refine h.publications fun hnil => ?_
    rw [hnil] at hq
    cases hq

private theorem aborted_step (h : Reusing b p first s) (hk : s.Kept p b.environment)
    (hstored : Stored b place first s) (hs : Step b p s e t) {l : Loss} {failure : String}
    (habort : t.phase = .aborted l failure) : ∃ n ∈ p.graph.names, ¬p.Warm b.environment first n := by
  rcases hs.aborted_cases habort with hold | ⟨f, hf, hlost⟩
  · exact h.aborted l failure hold
  refine ⟨f.name, Graph.mem_names_of_find? (hk.sent hf).source, fun hw => ?_⟩
  rcases hlost with hl | ⟨ho, turn, hl⟩
  · rcases h.flights f hf hw with hlookup | ⟨a, -, hhit⟩
    · rw [hl] at hlookup
      cases hlookup
    · rw [hl] at hhit
      cases hhit
  · obtain ⟨a, -, hhit⟩ := h.ended_of_work hk hstored hf hw ho turn
    rw [hl] at hhit
    cases hhit

theorem step (hp : p.Valid) (he : e ≠ .cancel) (hk : s.Kept p b.environment)
    (hstored : Stored b place first s) (h : Reusing b p first s) (hs : Step b p s e t) :
    Reusing b p first t where
  token := (hs.cancelled_eq he).trans h.token
  flights := h.flights_step hk hstored hs
  results := h.results_step hp hk hs
  compilations := h.compilations_step hk hs
  publications := h.publications_step hk hs
  aborted _ _ := h.aborted_step hk hstored hs

end Reusing

theorem Run.reusing {c : Caches σ} (hp : p.Valid) (hb : b.compiler.Sized)
    (hc : c.store.Undisturbed place) (hcap : c.store.capacity = none)
    (hr : Run b p Caches.SameStore (.initial p c) es s) (he : .cancel ∉ es) : Reusing b p c.store s := by
  refine Run.history (I := fun es s => .cancel ∉ es → Reusing b p c.store s)
    (fun es s e t hr h hs hnot => ?_) (fun es s c' _ h _ hnot => ?_) (fun _ => .initial c) hr he
  · rw [List.mem_append, List.mem_singleton] at hnot
    obtain ⟨hbefore, hlast⟩ := not_or.mp hnot
    exact (h hbefore).step hp (fun hcancel => hlast hcancel.symm) (hr.kept hp) (hr.stored hb hc hcap)
      (step_of_step? hs)
  · have := h hnot
    exact ⟨this.token, this.flights, this.results, this.compilations, this.publications, this.aborted⟩

/-- A step leaves the remote alone, compiles and publishes nothing, and is the same whatever compiler
and remote there are. -/
structure Quiet (b : Builder σ) (p : Plan) (s : State σ) (e : Event) (t : State σ) : Prop where
  remote : t.caches.remote = s.caches.remote
  publications : t.publications = s.publications
  compilations : t.compilations = s.compilations
  same : ∀ (compiler : Compiler) (client : Client σ), s.step? { b with compiler, client } p e = some t

/-- A unit that is looked up and held comes from the store, whatever compiler and remote there are. -/
private theorem State.step?_of_holds {i : Nat} {f : Flight} {a : Artifact} (hf : s.flights[i]? = some f)
    (hs : f.stage = .lookup) (ha : s.caches.store.Holds f.key a) (turn : Turn) (compiler : Compiler)
    (client : Client σ) : s.step? { b with compiler, client } p (.work i turn) = some (s.work b i f turn) := by
  have hhit : (f.lookup turn s.caches).stage = .ended (.localHit a) := Flight.stage_lookup.mpr ha
  simp [State.step?, hf, hs, Stage.isOver, Flight.work, hhit, Stage.fatal?, State.work]

namespace Reusing

theorem quiet (h : Reusing b p first s) (hk : s.Kept p b.environment) (hstored : Stored b place first s)
    {i : Nat} {f : Flight} (hf : s.flights[i]? = some f) (hw : p.Warm b.environment first f.name)
    (he : (∃ turn, e = .work i turn) ∨ ∃ d, e = .join i d) (ht : s.step? b p e = some t) :
    Quiet b p s e t := by
  have hmem := List.mem_of_getElem? hf
  have hstage := h.flights f hmem hw
  rcases he with ⟨turn, rfl⟩ | ⟨d, rfl⟩
  · rcases hstage with hlookup | ⟨a, -, hhit⟩
    · obtain ⟨a, ha⟩ := hw.holds (hk.sent hmem).key
      have hstep := State.step?_of_holds (b := b) (p := p) hf hlookup (hstored.holds f.key a ha) turn
      obtain rfl : s.work b i f turn = t := Option.some.inj ((hstep b.compiler b.client).symm.trans ht)
      refine ⟨?_, rfl, ?_, hstep⟩
      · simp only [State.work, Flight.work, hlookup]
        rw [Flight.caches_lookup]
      · simp [State.work, State.compilation, hlookup, Stage.isCompile]
    · simp [State.step?, hf, hhit, Stage.isOver] at ht
  · have hphase : s.phase = .waiting := by
      by_contra hphase
      simp [State.step?, hf, hphase] at ht
    rcases hstage with hlookup | ⟨a, -, hhit⟩
    · simp [State.step?, hf, hphase, hlookup] at ht
    · obtain rfl : s.join b p i f (.localHit a) d = t := by
        simpa [State.step?, hf, hphase, hhit] using ht
      refine ⟨rfl, List.append_nil _, rfl, fun compiler client => ?_⟩
      simp [State.step?, hf, hphase, hhit, State.join, State.published]

/-- If all units are warm, nothing is compiled or published, and nothing goes wrong. -/
theorem idle_of_warm (h : Reusing b p first s) (hw : ∀ n ∈ p.graph.names, p.Warm b.environment first n) :
    s.compilations = [] ∧ s.publications = [] ∧ ∀ l failure, s.phase ≠ .aborted l failure := by
  have hnone : ¬∃ n ∈ p.graph.names, ¬p.Warm b.environment first n := fun ⟨n, hn, hnot⟩ => hnot (hw n hn)
  refine ⟨?_, ?_, fun l failure haborted => hnone (h.aborted l failure haborted)⟩
  · by_contra hne
    obtain ⟨call, hcall⟩ := List.exists_mem_of_ne_nil _ hne
    exact hnone ⟨_, h.compilations call.1 (List.mem_map_of_mem hcall)⟩
  · by_contra hne
    exact hnone (h.publications hne)

theorem quiet_of_warm (h : Reusing b p first s) (hk : s.Kept p b.environment) (hstored : Stored b place first s)
    (hw : ∀ n ∈ p.graph.names, p.Warm b.environment first n) (he : e ≠ .cancel)
    (ht : s.step? b p e = some t) : Quiet b p s e t := by
  have hflight : ∀ {i : Nat} {f : Flight}, s.flights[i]? = some f → p.Warm b.environment first f.name := fun hf =>
    hw _ (Graph.mem_names_of_find? (hk.sent (List.mem_of_getElem? hf)).source)
  cases step_of_step? ht with
  | finish | wait | skip | send | lose => exact ⟨rfl, rfl, rfl, fun _ _ => ht⟩
  | work hf | perish hf => exact h.quiet hk hstored hf (hflight hf) (.inl ⟨_, rfl⟩) ht
  | join hphase hf hg | abort hphase hf hl => exact h.quiet hk hstored hf (hflight hf) (.inr ⟨_, rfl⟩) ht
  | publish hq =>
    rw [(h.idle_of_warm hw).2.1] at hq
    cases hq
  | cancel => exact absurd rfl he

end Reusing

private theorem needs_sameClosure {p' : Plan} (hp : p.Valid) (hp' : p'.Valid) {n d : String}
    (h : SameClosure p.graph.sources p'.graph.sources n) (hd : p.graph.Needs n d) :
    SameClosure p.graph.sources p'.graph.sources d ∧ p'.graph.Needs n d := by
  cases h with
  | @same u v hu hv hname hcontent hnames hrest =>
    have hdep := (hp.needs_iff (Graph.find?_eq_some.mpr ⟨hu, rfl⟩)).mp hd
    refine ⟨hrest d hdep, ?_⟩
    rw [hp'.needs_eq]
    exact ⟨v, hv, hname, (hnames d).mp hdep⟩

/-- If a unit succeeded in one build and is unchanged in the next, so is all that it depends on. -/
private theorem unchanged_success {p' : Plan} (hp : p.Valid) (hp' : p'.Valid) {env : Environment}
    {s' : State τ} (hk : s'.Kept p' env) {n m : String}
    (hsame : SameClosure p.graph.sources p'.graph.sources n)
    (hr : ∃ r ∈ s'.board.results, r.name = n ∧ r.outcome.isSuccess = true)
    (hreach : Relation.ReflTransGen p.graph.Needs n m) :
    SameClosure p.graph.sources p'.graph.sources m ∧
      ∃ r ∈ s'.board.results, r.name = m ∧ r.outcome.isSuccess = true := by
  induction hreach with
  | refl => exact ⟨hsame, hr⟩
  | tail _ hd ih =>
    obtain ⟨hclosure, r, hr, rfl, hsuccess⟩ := ih
    obtain ⟨hrest, hneeds⟩ := needs_sameClosure hp hp' hclosure hd
    exact ⟨hrest, hk.needs_success hr hsuccess hneeds⟩

private theorem mem_names_of_sameClosure {p' : Plan} {n : String}
    (h : SameClosure p.graph.sources p'.graph.sources n) : n ∈ p.graph.names ∧ n ∈ p'.graph.names := by
  cases h with
  | same hs hs' hname => exact ⟨List.mem_map_of_mem hs, hname ▸ List.mem_map_of_mem hs'⟩

/-- A unit comes from the local store with an artifact: its lookup finds it, its result says so, what
depends on it is given it, and neither the compiler nor the remote is asked for it. -/
structure Reused (b : Builder σ) (p : Plan) (s : State σ) (n : String) (k : CacheKey) (a : Artifact) :
    Prop where
  held : s.caches.store.Holds k a
  flights : ∀ f ∈ s.flights, f.name = n →
    f.key = k ∧ (f.stage = .lookup ∨ f.stage = .ended (.localHit a))
  quiet : ∀ i f e t, s.flights[i]? = some f → f.name = n →
    ((∃ turn, e = .work i turn) ∨ ∃ d, e = .join i d) → s.step? b p e = some t →
      Quiet b p s e t
  uncompiled : n ∉ s.compilations.map (·.1)
  recorded : ∀ r ∈ s.board.results, r.name = n →
    (∃ d, r = hitResult n k a d) ∧ s.board.artifacts.find? n = some a
  reported : s.phase = .finished → ∀ startedAt elapsed, ∃ report d,
    s.report startedAt elapsed = .ok report ∧ report.results.find? n = some (hitResult n k a d)

theorem Reusing.reused (hp : p.Valid) (h : Reusing b p first s) (hk : s.Kept p b.environment)
    (hstored : Stored b place first s) {n : String} {k : CacheKey} {a : Artifact}
    (hw : p.Warm b.environment first n) (hn : n ∈ p.graph.names)
    (hkey : (p.keys b.environment).find? n = some k) (ha : first.Holds k a) : Reused b p s n k a := by
  have hrecorded : ∀ r ∈ s.board.results, r.name = n →
      (∃ d, r = hitResult n k a d) ∧ s.board.artifacts.find? n = some a := fun r hr hname => by
    subst hname
    obtain ⟨k', a', d, hkey', ha', he, hartifact⟩ := h.results r hr hw
    obtain rfl : k = k' := Option.some.inj (hkey.symm.trans hkey')
    obtain rfl := ha.eq ha'
    exact ⟨⟨d, he⟩, hartifact⟩
  refine ⟨hstored.holds k a ha, fun f hf hname => ?_, fun i f e t hf hname he ht => ?_,
    fun hc => (h.compilations n hc).2 hw, hrecorded, fun hphase startedAt elapsed => ?_⟩
  · subst hname
    obtain rfl : f.key = k := Option.some.inj ((hk.sent hf).key.symm.trans hkey)
    refine ⟨rfl, (h.flights f hf hw).imp_right ?_⟩
    rintro ⟨a', ha', hhit⟩
    rw [hhit, ha.eq ha']
  · subst hname
    exact h.quiet hk hstored hf hw he ht
  · obtain ⟨report, hreport, hperm, hfind⟩ := hk.exists_report hp hphase startedAt elapsed
    obtain ⟨r, hr⟩ := NameMap.mem_names.mp (hperm.mem_iff.mpr hn)
    obtain ⟨hmem, hname⟩ := State.mem_results_of_report hreport hr
    obtain ⟨⟨d, rfl⟩, -⟩ := hrecorded r hmem hname
    exact ⟨report, d, hreport, hr⟩

/-- What holds at every moment of a build after one that was reported and left a store. -/
structure Incremental (b : Builder σ) (p : Plan) (sources earlier : List Source) (report : Report)
    (store : Store) (c : Caches σ) (es : List Event) (s : State σ) : Prop where
  /-- A build that is not over can go on. -/
  continues : s.isOver = false → ∃ e t, e ≠ .cancel ∧ s.step? b p e = some t
  /-- Only a fetch that breaks down keeps a build from its report. -/
  aborts : ∀ l failure, s.phase = .aborted l failure → BrokeDown b p Caches.SameStore (.initial p c) es l ∧ l ≠ .found
  /-- A unit that succeeded and is unchanged comes from the store, with what the earlier build left. -/
  reuses : ∀ n r, SameClosure sources earlier n → report.results.find? n = some r →
    r.outcome.isSuccess = true → ∃ k a, r.key = some k ∧ store.Holds k a ∧ Reused b p s n k a
  /-- If all units succeeded and none changed, no step has to do with the compiler or the remote. -/
  untouched : Rearranged sources earlier → report.isSuccess = true →
    (∀ u ∈ sources, SameClosure sources earlier u.name ∧
      ∃ r, report.results.find? u.name = some r ∧ r.outcome.isSuccess = true) ∧
    s.compilations = [] ∧ s.publications = [] ∧ (∀ l failure, s.phase ≠ .aborted l failure) ∧
    ∀ e t, e ≠ .cancel → s.step? b p e = some t → Quiet b p s e t

section

variable {b' : Builder τ} {p' : Plan} {s' : State τ}

/-- An unchanged unit has the key that it was built with, and the store holds what came of it. -/
private theorem unchanged_key (hp : p.Valid) (hp' : p'.Valid) (henv : b.environment = b'.environment)
    (hk : s'.Kept p' b'.environment) (hstored : Stored b' place first s') {r : UnitResult}
    (hsame : SameClosure p.graph.sources p'.graph.sources r.name) (hr : r ∈ s'.board.results)
    (hsuccess : r.outcome.isSuccess = true) : ∃ k a, r.key = some k ∧ s'.caches.store.Holds k a ∧
      (p.keys b.environment).find? r.name = some k := by
  obtain ⟨k, a, hkey, ha⟩ := hstored.results r hr hsuccess
  have hmem := (mem_names_of_sameClosure hsame).1
  obtain ⟨l, hl⟩ : ∃ l, (p.keys b.environment).find? r.name = some l := Plan.exists_evaluate hp hmem
  have hmerkle' := hk.merkleKey hp' hr hkey
  rw [← henv] at hmerkle'
  obtain rfl : l = k := MerkleKey.congr p.graph.names_nodup p'.graph.names_nodup hsame
    (hp.merkleKey b.environment hmem hl) hmerkle'
  exact ⟨l, a, hkey, ha, hl⟩

/-- An unchanged unit that succeeded is warm if the keys of all successes are still held. -/
private theorem unchanged_warm (hp : p.Valid) (hp' : p'.Valid) (henv : b.environment = b'.environment)
    (hk : s'.Kept p' b'.environment) (hstored : Stored b' place first s') {store : Store}
    (hkept : ∀ q ∈ s'.board.results, ∀ k a, q.key = some k → s'.caches.store.Holds k a → store.Holds k a)
    {r : UnitResult} (hsame : SameClosure p.graph.sources p'.graph.sources r.name)
    (hr : r ∈ s'.board.results) (hsuccess : r.outcome.isSuccess = true) :
    p.Warm b.environment store r.name := by
  intro m hreach
  obtain ⟨hclosure, q, hq, rfl, hqsuccess⟩ :=
    unchanged_success hp hp' hk hsame ⟨r, hr, rfl, hsuccess⟩ hreach
  obtain ⟨k, a, hkey, ha, hfind⟩ := unchanged_key hp hp' henv hk hstored hclosure hq hqsuccess
  exact ⟨k, a, hfind, hkept q hq k a hkey ha⟩

private theorem BrokeDown.ne_found {c : Caches σ} (hb : b.compiler.Sized) (hc : c.store.Undisturbed place)
    (hcap : c.store.capacity = none) {l : Loss} (h : BrokeDown b p Caches.SameStore (.initial p c) es l) :
    l ≠ .found := by
  obtain ⟨before, after, u, f, -, hr, -, hbreaks⟩ := h
  rintro rfl
  cases hbreaks with
  | @found raw hs hf hd =>
    rw [(hr.stored hb hc hcap).undisturbed.readable f.key raw hf] at hd
    cases hp : Artifact.parse f.key raw <;> simp [hp] at hd

/-- After a build, whatever was collected since with its keys live, and also if the store was opened
again, a build in the same environment takes what is unchanged from the store. -/
theorem reuses_unchanged (henv : b.environment = b'.environment) (hb : b.compiler.Sized)
    (hb' : b'.compiler.Sized) {sources earlier : List Source} (hp : Plan.ofSources sources = .ok p)
    (hp' : Plan.ofSources earlier = .ok p') {c' : Caches τ} (hc : c'.store.Undisturbed place)
    (hcap : c'.store.capacity = none) (hr' : Run b' p' Caches.SameStore (.initial p' c') es s')
    (hphase : s'.phase = .finished) {startedAt : Timestamp} {elapsed : Duration} {report : Report}
    (hreport : s'.report startedAt elapsed = .ok report) {c : Caches σ}
    (htended : Store.Tended place report.HasKey s'.caches.store c.store) :
    (∀ process, ∃ d store, Store.open c.store.disk place none process = (d, .ok store)) ∧
    (∀ turn, ∃ t es, b.build c sources .never turn = .ok t ∧ t.isOver = true ∧
      (State.initial p c).steps? b p es = some t ∧ .cancel ∉ es) ∧
    ∀ es s, Run b p Caches.SameStore (.initial p c) es s → .cancel ∉ es →
      es.length ≤ State.eventsPerUnit b * sources.length + 2 ∧
      Incremental b p sources earlier report s'.caches.store c es s := by
  obtain ⟨hv', rfl⟩ := Plan.ofSources_ok hp'
  have hk' := hr'.kept hv'
  have hstored' := hr'.stored hb' hc hcap
  obtain ⟨hundisturbed, hunlimited, hkeeps⟩ := htended.keeps hstored'.undisturbed hstored'.unlimited
  have hend : Run b' p' Caches.SameStore s' [] s' := .nil
  have hreported : ∀ q ∈ s'.board.results, report.results.find? q.name = some q := fun q hq =>
    hend.reported hv' hk' hq hreport
  have hkept : ∀ q ∈ s'.board.results, ∀ k a, q.key = some k → s'.caches.store.Holds k a →
      c.store.Holds k a := fun q hq k a hkey => hkeeps k a ⟨q.name, q, hreported q hq, hkey⟩
  refine ⟨hundisturbed.reopens none, fun turn => ?_, fun es s hr he => ?_⟩
  · obtain ⟨t, es, ht, hover, hes, hnever⟩ := State.build_isOver (b := b) hp c .never turn
    exact ⟨t, es, ht, hover, hes, hnever rfl⟩
  obtain ⟨hv, rfl⟩ := Plan.ofSources_ok hp
  have hk := hr.kept hv
  have hreusing := hr.reusing hv hb hundisturbed hunlimited he
  have hstored := hr.stored hb hundisturbed hunlimited
  refine ⟨hr.length_le hv, State.exists_step? hk, fun l failure habort => ?_, fun n r hsame hfind hsuccess => ?_,
    fun hrearranged hall => ?_⟩
  · have hbroke := hr.brokeDown habort
    exact ⟨hbroke, hbroke.ne_found hb hundisturbed hunlimited⟩
  · obtain ⟨hmem, rfl⟩ := State.mem_results_of_report hreport hfind
    obtain ⟨k, a, hkey, ha, hplan⟩ := unchanged_key hv hv' henv hk' hstored' hsame hmem hsuccess
    have hwarm := unchanged_warm hv hv' henv hk' hstored' hkept hsame hmem hsuccess
    exact ⟨k, a, hkey, ha, hreusing.reused hv hk hstored hwarm
      (mem_names_of_sameClosure hsame).1 hplan (hkept r hmem k a hkey ha)⟩
  · have hunits : ∀ n ∈ p.graph.names, SameClosure p.graph.sources p'.graph.sources n ∧
        ∃ r, report.results.find? n = some r ∧ r.outcome.isSuccess = true := fun n hn => by
      have hsame := hrearranged.sameClosure hv hn
      obtain ⟨full, hfull, hperm, -⟩ := hk'.exists_report hv' hphase startedAt elapsed
      obtain rfl : report = full := Result.ok.inj (hreport.symm.trans hfull)
      obtain ⟨r, hfind⟩ := NameMap.mem_names.mp (hperm.mem_iff.mpr (mem_names_of_sameClosure hsame).2)
      exact ⟨hsame, r, hfind, Report.isSuccess_of_find? hall hfind⟩
    have hwarm : ∀ n ∈ p.graph.names, p.Warm b.environment c.store n := fun n hn => by
      obtain ⟨hsame, r, hfind, hsuccess⟩ := hunits n hn
      obtain ⟨hmem, rfl⟩ := State.mem_results_of_report hreport hfind
      exact unchanged_warm hv hv' henv hk' hstored' hkept hsame hmem hsuccess
    obtain ⟨hcompilations, hpublications, haborted⟩ := hreusing.idle_of_warm hwarm
    exact ⟨fun u hu => hunits _ (List.mem_map_of_mem hu), hcompilations, hpublications, haborted,
      fun e t he ht => hreusing.quiet_of_warm hk hstored hwarm he ht⟩

end

def freshStore : Store :=
  ⟨⟨[(["cache", "artifacts"], .directory), (["cache"], .directory)], []⟩, ["cache"], none, .empty,
    ⟨0, 0, 0, 0, 0⟩, ⟨1, none⟩, 0⟩

theorem open_emptyDirectory :
    Store.open Store.emptyDirectory ["cache"] none ⟨1, none⟩ = (freshStore.disk, .ok freshStore) := by cbv

theorem undisturbed_freshStore : freshStore.Undisturbed ["cache"] :=
  .opened rfl Store.vacant_emptyDirectory open_emptyDirectory

def freshCaches : Caches Unit := ⟨freshStore, .initial ()⟩

theorem sized_acceptingBuilder : acceptingBuilder.compiler.Sized := by
  rintro s dependencies data ⟨⟩
  decide

/-- The two units in another order, and the dependency declared once. -/
def pairAgain : List Source := [⟨"b", [], ["a"]⟩, ⟨"a", [], []⟩]

def pairAgainPlan : Plan :=
  ⟨⟨pairAgain, pairPlan.graph.edges, by decide, pairPlan.graph.edges_nodup, by decide⟩, ["a", "b"]⟩

theorem rearranged_pairAgain : Rearranged pairAgain pair := by
  intro u hu
  rcases List.mem_pair.mp hu with rfl | rfl
  · exact ⟨⟨"b", [], ["a", "a"]⟩, by decide, rfl, rfl, by simp⟩
  · exact ⟨⟨"a", [], []⟩, by decide, rfl, rfl, by simp⟩

/-- The first build ends well, its store is opened again, and the second build compiles nothing. -/
theorem reuses_unchanged_pair : ∃ s t : State Unit, ∃ d store k a,
    acceptingBuilder.build freshCaches pair .never (.plain 0) = .ok s ∧ s.phase = .finished ∧
    Store.open s.caches.store.disk ["cache"] none ⟨2, none⟩ = (d, .ok store) ∧
    acceptingBuilder.build ⟨store, .initial ()⟩ pairAgain .never (.plain 0) = .ok t ∧
    t.phase = .finished ∧ t.compilations = [] ∧ Reused acceptingBuilder pairAgainPlan t "b" k a := by
  have hp : Plan.ofSources pair = .ok pairPlan := by cbv
  have hp' : Plan.ofSources pairAgain = .ok pairAgainPlan := by cbv
  obtain ⟨s, es, hbuild, -, hes, -⟩ :=
    State.build_isOver (b := acceptingBuilder) hp freshCaches .never (.plain 0)
  have hr : Run acceptingBuilder pairPlan Caches.SameStore (.initial pairPlan freshCaches) es s :=
    .of_steps? hes
  have hends : (acceptingBuilder.build freshCaches pair .never (.plain 0)).toOption.map (fun s =>
      (s.phase, (Report.ofResults .newYear 0 s.board.results).isSuccess)) = some (.finished, true) := by
    rw [Builder.build, hp]
    decide +kernel
  rw [hbuild] at hends
  obtain ⟨hphase, hsuccess⟩ := Prod.mk.inj (Option.some.inj hends)
  have hreport : s.report .newYear 0 = .ok (.ofResults .newYear 0 s.board.results) := by
    rw [State.report, hphase]
  obtain ⟨d, store, hopen⟩ :=
    (hr.stored sized_acceptingBuilder undisturbed_freshStore rfl).undisturbed.reopens none ⟨2, none⟩
  obtain ⟨-, hbuilds, hruns⟩ := reuses_unchanged (c := ⟨store, .initial ()⟩) rfl sized_acceptingBuilder
    sized_acceptingBuilder hp' hp undisturbed_freshStore rfl hr hphase hreport (.reopened .refl hopen)
  obtain ⟨t, es', hbuild', hover, hes', hnever⟩ := hbuilds (.plain 0)
  obtain ⟨-, hincremental⟩ := hruns es' t (.of_steps? hes') hnever
  obtain ⟨hunits, hcompilations, -, haborted, -⟩ :=
    hincremental.untouched rearranged_pairAgain hsuccess
  obtain ⟨hsame, r, hfind, hr⟩ := hunits ⟨"b", [], ["a"]⟩ (by decide)
  obtain ⟨k, a, -, -, hreused⟩ := hincremental.reuses "b" r hsame hfind hr
  have hfinished : t.phase = .finished := by
    cases ht : t.phase with
    | finished => rfl
    | aborted l failure => exact absurd ht (haborted l failure)
    | releasing | waiting => simp [State.isOver, ht] at hover
  exact ⟨s, t, d, store, k, a, hbuild, hphase, hopen, hbuild', hfinished, hcompilations, hreused⟩

def grown : List Source := [⟨"a", [], []⟩, ⟨"b", [1], []⟩]

def grownPlan : Plan := ⟨edgeless grown (by decide), ["a", "b"]⟩

/-- One unit succeeded and is unchanged, but a retry without a delay for another brings the next build down. -/
theorem no_reuse_without_delay : freshStore.Undisturbed ["cache"] ∧ freshStore.capacity = none ∧
    acceptingBuilder.environment = hopelessBuilder.environment ∧ SameClosure grown lone "a" ∧
    ∃ s t : State Unit, acceptingBuilder.build freshCaches lone .never (.plain 0) = .ok s ∧
      s.phase = .finished ∧ (s.board.results.map fun r => (r.name, r.outcome)) = [("a", .compiled)] ∧
      hopelessBuilder.build ⟨s.caches.store, .initial ()⟩ grown .never (.plain 0) = .ok t ∧
      t.isOver = true ∧
      ∀ startedAt elapsed, t.report startedAt elapsed = .error (.task "the task panicked") := by
  have hp : Plan.ofSources lone = .ok lonePlan := by cbv
  have hp' : Plan.ofSources grown = .ok grownPlan := by cbv
  have hmem : (⟨"a", [], []⟩ : Source) ∈ grown := by decide
  have hmem' : (⟨"a", [], []⟩ : Source) ∈ lone := by decide
  have hsame : SameClosure grown lone "a" :=
    .same hmem hmem' rfl rfl (fun _ => Iff.rfl) fun d hd => by cases hd
  obtain ⟨s, t, hs, hphase, hresults, ht, haborted⟩ : ∃ s t : State Unit,
      acceptingBuilder.build freshCaches lone .never (.plain 0) = .ok s ∧ s.phase = .finished ∧
      (s.board.results.map fun r => (r.name, r.outcome)) = [("a", .compiled)] ∧
      hopelessBuilder.build ⟨s.caches.store, .initial ()⟩ grown .never (.plain 0) = .ok t ∧
      t.phase = .aborted .retry "the task panicked" := by
    refine ⟨_, _, by rw [Builder.build, hp], ?_, ?_, by rw [Builder.build, hp'], ?_⟩ <;> decide +kernel
  refine ⟨undisturbed_freshStore, rfl, rfl, hsame, s, t, hs, hphase, hresults, ht, ?_, fun _ _ => ?_⟩
  · simp [State.isOver, haborted]
  · rw [State.report, haborted]
    rfl

end Build
end BuildCache
