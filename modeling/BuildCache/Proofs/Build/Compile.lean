import BuildCache.Proofs.Build.Verdict
import BuildCache.Proofs.Store.Sound

/-! # Compilations: one for a unit at most, after all its dependencies and on what came of them -/
namespace BuildCache

variable {σ : Type}

theorem Ending.isSuccess_outcome {e : Ending} :
    e.outcome.isSuccess = true ↔ ∃ a, e.artifact? = some a := by
  cases e with
  | localHit a | remoteHit a | compiled a => exact ⟨fun _ => ⟨a, rfl⟩, fun _ => rfl⟩
  | failed | cancelled => exact ⟨fun h => (by cases h), fun ⟨a, h⟩ => (by cases h)⟩

/-- Whether a unit may yet be handed to the compiler. -/
def Stage.isUncompiled : Stage → Bool
  | lookup | fetch | await _ | compile => true
  | adopt _ | keep _ | ended _ | lost .. => false

namespace Flight

/-- Every artifact that comes of a unit has its key. -/
def keyLimits (f : Flight) : Stage.Limits where
  answer _ := True
  artifact a := a.key = f.key
  ending e := ∀ a, e.artifact? = some a → a.key = f.key

variable {b : Builder σ} {cancelled : Bool} {turn : Build.Turn} {c : Caches σ} {f : Flight}

theorem respects_keyLimits : Respects b cancelled turn c f f.keyLimits where
  hit a h := by
    obtain ⟨raw, -, hdecode⟩ := Store.get_some h
    rintro _ ⟨⟩
    exact Artifact.key_of_parse hdecode
  answers := trivial
  times := trivial
  decodes raw a _ h := Artifact.key_of_parse h
  cancels _ a h := by cases h
  adopts a h := by
    rintro _ ⟨⟩
    exact h
  keeps a h := by
    rintro _ ⟨⟩
    exact h
  output data _ := rfl
  rejects message _ a h := by cases h
  crashes _ a h := by cases h

theorem isUncompiled_of_work (h : (f.work b cancelled turn c).stage.isUncompiled = true) :
    f.stage.isUncompiled = true ∧ f.stage.isCompile = false := by
  simp only [work] at h
  cases hs : f.stage with
  | lookup | fetch | await => exact ⟨rfl, rfl⟩
  | compile =>
    simp only [hs, compile] at h
    split at h <;> cases h
  | adopt | keep | ended | lost =>
    rw [hs] at h
    cases h

/-- Work asks the compiler for nothing but a compilation of the unit on its dependencies. -/
theorem work_congr {compiler : Compiler}
    (h : f.stage.isCompile = true → compiler f.source f.dependencies = b.compiler f.source f.dependencies) :
    f.work { b with compiler } cancelled turn c = f.work b cancelled turn c := by
  simp only [work]
  cases hs : f.stage with
  | compile =>
    simp only [compile]
    rw [h (by rw [hs]; rfl)]
  | lookup | fetch | await | adopt | keep | ended | lost => rfl

end Flight

namespace Build

variable {b : Builder σ} {p : Plan} {meddles : Caches σ → Caches σ → Prop} {c : Caches σ}
  {s t : State σ} {e : Event} {es : List Event}

theorem Step.compilations (hs : Step b p s e t) : t.compilations = s.compilations ∨
    ∃ i turn f, e = .work i turn ∧ s.flights[i]? = some f ∧ f.stage = .compile ∧
      t.compilations = s.compilations ++ [(f.name, f.dependencies)] := by
  cases hs with
  | @work i turn f hf | @perish i turn f l failure hf =>
    simp only [State.perish, State.work, State.compilation]
    cases hstage : f.stage with
    | compile => exact .inr ⟨i, turn, f, rfl, hf, hstage, rfl⟩
    | lookup | fetch | await | adopt | keep | ended | lost => exact .inl (List.append_nil _)
  | finish | wait | skip | send | lose | join | abort | publish | cancel => exact .inl rfl

theorem compilations_of_step? {i : Nat} {turn : Turn} {f : Flight} (hf : s.flights[i]? = some f)
    (h : s.step? b p (.work i turn) = some t) : t.compilations = s.compilations ++ State.compilation f := by
  cases step_of_step? h with
  | work hf' | perish hf' =>
    cases hf.symm.trans hf'
    rfl

/-- A step is the same with a compiler that gives the same answer where the step asks for one. -/
theorem State.step?_congr {compiler : Compiler} (h : s.step? b p e = some t)
    (hsame : ∀ i turn f, e = .work i turn → s.flights[i]? = some f → f.stage = .compile →
      compiler f.source f.dependencies = b.compiler f.source f.dependencies) :
    s.step? { b with compiler } p e = some t := by
  cases e with
  | release | join | publish | cancel => exact h
  | work i turn =>
    simp only [State.step?, bind, Option.bind_eq_some_iff] at h ⊢
    obtain ⟨f, hf, h⟩ := h
    refine ⟨f, hf, ?_⟩
    rw [← h]
    simp only [State.work]
    rw [Flight.work_congr fun hc => hsame i turn f rfl hf ?_]
    cases hs : f.stage with
    | compile => rfl
    | lookup | fetch | await | adopt | keep | ended | lost =>
      rw [hs] at hc
      cases hc

private theorem mem_set_flight {flights : List Flight} (hn : (flights.map (·.name)).Nodup) {i : Nat}
    {f g h : Flight} (hf : flights[i]? = some f) (hg : g ∈ flights.set i h) :
    g = h ∨ g ∈ flights ∧ g.name ≠ f.name := by
  obtain ⟨j, hj⟩ := List.mem_iff_getElem?.mp hg
  rw [List.getElem?_set] at hj
  by_cases hij : i = j
  · rw [if_pos hij] at hj
    split at hj
    · cases hj
      exact .inl rfl
    · cases hj
  · rw [if_neg hij] at hj
    refine .inr ⟨List.mem_of_getElem? hj, fun hname => hij ?_⟩
    have hi : (flights.map (·.name))[i]? = some f.name := by simp [hf]
    have hj : (flights.map (·.name))[j]? = some f.name := by simp [hj, hname]
    obtain ⟨hlt, -⟩ := List.getElem?_eq_some_iff.mp hi
    exact (List.getElem?_inj hlt hn).mp (hi.trans hj.symm)

/-- No unit was compiled twice, and those that may yet be compiled never were. -/
private structure Sparing (s : State σ) : Prop where
  nodup : (s.compilations.map (·.1)).Nodup
  taken : ∀ n ∈ s.compilations.map (·.1), n ∈ s.board.taken
  fresh : ∀ f ∈ s.flights, f.stage.isUncompiled = true → f.name ∉ s.compilations.map (·.1)

private theorem Sparing.send (hk : s.Kept p b.environment) (h : Sparing s) {n : String}
    {source : Source} (hphase : s.phase = .releasing) (hn : s.board.next? p = some n)
    (hs : p.graph.find? n = some source) : Sparing (s.send b n source) := by
  have hname : (s.flightOf b n source).name = n := (Graph.find?_eq_some.mp hs).2
  have hready := ((hk.orderly (.inl hphase)).tracks.frontier.ready_iff n).mp (Board.mem_ready_of_next? hn)
  refine ⟨h.nodup, fun m hm => List.mem_append_left _ (h.taken m hm), fun g hg hu => ?_⟩
  rcases List.mem_append.mp hg with hg | hg
  · exact h.fresh g hg hu
  · rw [List.mem_singleton.mp hg, hname]
    exact fun hm => hready.2.1 (h.taken n hm)

private theorem Sparing.work (hk : s.Kept p b.environment) (h : Sparing s) {i : Nat}
    {turn : Turn} {f : Flight} (hf : s.flights[i]? = some f) :
    Sparing (s.work b i f turn) := by
  have hmem := List.mem_of_getElem? hf
  have ht := (hk.orderly_of_mem hmem).tracks
  have hnodup := (List.nodup_append.mp ht.nodup).2.1
  have hothers : ∀ g ∈ (s.work b i f turn).flights, g.stage.isUncompiled = true →
      g.name ∉ s.compilations.map (·.1) ∧ (f.stage.isCompile = true → g.name ≠ f.name) := fun g hg hu => by
    rcases mem_set_flight hnodup hf hg with rfl | ⟨hg, hne⟩
    · have hwork := Flight.isUncompiled_of_work hu
      refine ⟨h.fresh f hmem hwork.1, fun hc => ?_⟩
      rw [hwork.2] at hc
      cases hc
    · exact ⟨h.fresh g hg hu, fun _ => hne⟩
  cases hc : f.stage.isCompile with
  | false =>
    have hsame : (s.work b i f turn).compilations = s.compilations := by
      simp [State.work, State.compilation, hc]
    refine ⟨hsame ▸ h.nodup, hsame ▸ h.taken, fun g hg hu => ?_⟩
    rw [hsame]
    exact (hothers g hg hu).1
  | true =>
    have hmore : (s.work b i f turn).compilations.map (·.1) = s.compilations.map (·.1) ++ [f.name] := by
      simp [State.work, State.compilation, hc]
    have hu : f.stage.isUncompiled = true := by
      cases hs : f.stage with
      | compile => rfl
      | lookup | fetch | await | adopt | keep | ended | lost =>
        rw [hs] at hc
        cases hc
    refine ⟨?_, fun m hm => ?_, fun g hg hu => ?_⟩
    · rw [hmore]
      exact List.nodup_append.mpr ⟨h.nodup, List.nodup_singleton _, fun m hm m' hm' he =>
        h.fresh f hmem hu (List.mem_singleton.mp hm' ▸ he ▸ hm)⟩
    · rw [hmore] at hm
      rcases List.mem_append.mp hm with hm | hm
      · exact h.taken m hm
      · rw [List.mem_singleton.mp hm]
        exact ht.mem_taken.mpr (.inr (List.mem_map_of_mem hmem))
    · rw [hmore, List.mem_append, List.mem_singleton]
      exact not_or.mpr ⟨(hothers g hg hu).1, (hothers g hg hu).2 hc⟩

private theorem Sparing.step (hk : s.Kept p b.environment) (h : Sparing s) (hs : Step b p s e t) :
    Sparing t := by
  cases hs with
  | finish | wait | publish | cancel => exact ⟨h.nodup, h.taken, h.fresh⟩
  | skip | lose => exact ⟨h.nodup, fun m hm => List.mem_append_left _ (h.taken m hm), h.fresh⟩
  | send hphase hw hc hn hb hs => exact h.send hk hphase hn hs
  | work hf ho => exact h.work hk hf
  | @perish i turn f l failure hf =>
    have hwork : Sparing (s.work b i f turn) := h.work hk hf
    exact ⟨hwork.nodup, hwork.taken, fun g hg => absurd hg List.not_mem_nil⟩
  | @join i duration f e hphase hf he =>
    refine ⟨h.nodup, fun m hm => ?_, fun g hg => h.fresh g (List.mem_of_mem_eraseIdx hg)⟩
    rw [State.join, Board.record, Orderly.taken_conclude]
    exact h.taken m hm
  | abort => exact ⟨h.nodup, h.taken, fun g hg => absurd hg List.not_mem_nil⟩

private theorem Run.sparing (hp : p.Valid) (hr : Run b p meddles (.initial p c) es s) : Sparing s := by
  refine hr.induction_kept hp (fun s e t _ hk h hs => h.step hk hs)
    (fun s c h _ => ⟨h.nodup, h.taken, h.fresh⟩) (.initial hp b.environment c) ⟨.nil, ?_, ?_⟩
  · exact fun n hn => absurd hn List.not_mem_nil
  · exact fun f hf => absurd hf List.not_mem_nil

theorem Run.length_flights_le (hr : Run b p meddles (.initial p c) es s) :
    s.flights.length ≤ b.workers := by
  refine hr.induction (I := fun s => s.flights.length ≤ b.workers) (fun s e t _ h hs => ?_)
    (fun s c h _ => h) (Nat.zero_le _)
  cases hs with
  | finish | wait | skip | lose | publish | cancel => exact h
  | send hphase hw hc hn hb hs =>
    rw [State.send, List.length_append, List.length_singleton]
    exact hw
  | work hf ho =>
    rw [State.work, List.length_set]
    exact h
  | join hphase hf he => exact Nat.le_trans (List.length_eraseIdx_le _ _) h
  | perish | abort => exact Nat.zero_le _

section

variable {α : Type} {l : List α} {i : Nat} {x y : α}

private theorem mem_eraseIdx_of_ne (hx : l[i]? = some x) (hy : y ∈ l) (hne : y ≠ x) : y ∈ l.eraseIdx i :=
  (List.mem_cons.mp ((perm_eraseIdx hx).mem_iff.mp hy)).resolve_left hne

private theorem mem_set_of_ne (hx : l[i]? = some x) (hy : y ∈ l) (hne : y ≠ x) (z : α) : y ∈ l.set i z :=
  (perm_set hx z).mem_iff.mpr (List.mem_cons_of_mem z (mem_eraseIdx_of_ne hx hy hne))

end

/-- What a step makes of a unit in flight: it stays there, its end is recorded, or the build is given up. -/
theorem Step.flight (hs : Step b p s e t) {f : Flight} (hf : f ∈ s.flights) :
    (∃ stage, { f with stage } ∈ t.flights ∧ (f.stage.isOver = true → stage = f.stage)) ∨
    (∃ g duration, f.stage = .ended g ∧ State.resultOf f g duration ∈ t.board.results) ∨
    ∃ l failure, t.phase = .aborted l failure := by
  cases hs with
  | finish | wait | skip | lose | publish | cancel => exact .inl ⟨f.stage, hf, fun _ => rfl⟩
  | send => exact .inl ⟨f.stage, List.mem_append_left _ hf, fun _ => rfl⟩
  | @work i turn g hg ho =>
    by_cases he : f = g
    · subst he
      refine .inl ⟨_, List.mem_set (List.getElem?_eq_some_iff.mp hg).1 _, fun hover => ?_⟩
      rw [ho] at hover
      cases hover
    · exact .inl ⟨f.stage, mem_set_of_ne hg hf he _, fun _ => rfl⟩
  | @join i duration g ending hphase hg hending =>
    by_cases he : f = g
    · subst he
      exact .inr (.inl ⟨ending, duration, hending, List.mem_append_right _ (List.mem_singleton_self _)⟩)
    · exact .inl ⟨f.stage, mem_eraseIdx_of_ne hg hf he, fun _ => rfl⟩
  | perish | abort => exact .inr (.inr ⟨_, _, rfl⟩)

theorem Step.results_subset (hs : Step b p s e t) {r : UnitResult} (hr : r ∈ s.board.results) :
    r ∈ t.board.results := by
  cases hs with
  | wait | send | lose | work | perish | abort | publish | cancel => exact hr
  | finish | skip => exact List.mem_append_left _ hr
  | @join i duration f e hphase hf he =>
    rw [State.join, Board.record, Orderly.results_conclude]
    exact List.mem_append_left _ hr

/-- A result that a step records is that of a unit never taken up, at the end, of one that is skipped,
or of one that was in flight. -/
theorem Step.results_new (hs : Step b p s e t) {r : UnitResult} (hr : r ∈ t.board.results) :
    r ∈ s.board.results ∨
    (s.phase = .releasing ∧ s.flights = [] ∧ s.Stuck b p ∧ t = s.finish p ∧
      ∃ n, r = .cancelled n (s.board.keys.find? n)) ∨
    (s.phase = .releasing ∧ ∃ n cause, s.board.causes.find? n = some cause ∧ r = .skipped n cause) ∨
    ∃ i duration f g, s.flights[i]? = some f ∧ f.stage = .ended g ∧ t = s.join b p i f g duration ∧
      r = State.resultOf f g duration := by
  cases hs with
  | wait | send | lose | work | perish | abort | publish | cancel => exact .inl hr
  | finish hphase hf hstuck =>
    refine (List.mem_append.mp hr).imp_right fun hr => .inl ⟨hphase, hf, hstuck, rfl, ?_⟩
    obtain ⟨n, -, rfl⟩ := List.mem_map.mp hr
    exact ⟨n, rfl⟩
  | @skip n cause hphase hw hc hn hcause =>
    refine (List.mem_append.mp hr).imp_right fun hr => .inr (.inl ⟨hphase, n, cause, hcause, ?_⟩)
    exact List.mem_singleton.mp hr
  | @join i duration f g hphase hf hg =>
    rw [State.join, Board.record, Orderly.results_conclude] at hr
    refine (List.mem_append.mp hr).imp_right fun hr => .inr (.inr ⟨i, duration, f, g, hf, hg, rfl, ?_⟩)
    exact List.mem_singleton.mp hr

theorem Step.artifacts_subset (hk : s.Kept p b.environment) (hs : Step b p s e t) {n : String}
    {a : Artifact} (ha : s.board.artifacts.find? n = some a) : t.board.artifacts.find? n = some a := by
  cases hs with
  | finish | wait | skip | send | lose | work | perish | abort | publish | cancel => exact ha
  | @join i duration f e hphase hf he =>
    have ho := hk.orderly (.inr hphase)
    have hnot := ho.tracks.not_mem_done (List.mem_map_of_mem (List.mem_of_getElem? hf))
    have hne : f.name ≠ n := fun hname => hnot (hname ▸ ho.stocked.done n a ha)
    rw [State.join, Board.record, Orderly.artifacts_conclude, if_neg hne]
    exact ha

theorem Step.artifacts_new (hs : Step b p s e t) {n : String} {a : Artifact}
    (ha : t.board.artifacts.find? n = some a) : s.board.artifacts.find? n = some a ∨
    ∃ i duration f g, e = .join i duration ∧ s.flights[i]? = some f ∧ f.name = n ∧ f.stage = .ended g ∧
      g.artifact? = some a ∧ State.resultOf f g duration ∈ t.board.results := by
  cases hs with
  | finish | wait | skip | send | lose | work | perish | abort | publish | cancel => exact .inl ha
  | @join i duration f g hphase hf he =>
    rw [State.join, Board.record, Orderly.artifacts_conclude] at ha
    split at ha
    · next hn =>
      rcases Option.or_eq_some_iff.mp ha with hg | ⟨-, ha⟩
      · refine .inr ⟨i, duration, f, g, rfl, hf, hn, he, hg, ?_⟩
        exact List.mem_append_right _ (List.mem_singleton_self _)
      · exact .inl ha
    · exact .inl ha

/-- Some dependencies are the artifacts that the board has for those of a unit, and no others. -/
structure Supplied (board : Board) (source : Source) (dependencies : NameMap Artifact) : Prop where
  names : dependencies.names.Perm source.distinctDependencies
  artifacts : ∀ d ∈ source.dependencies, ∃ a, dependencies.find? d = some a ∧
    board.artifacts.find? d = some a

theorem find?_dependencyArtifacts (board : Board) (source : Source) (n : String) :
    (board.dependencyArtifacts source).find? n
      = if n ∈ source.dependencies then board.artifacts.find? n else none := by
  have hnodup := (board.artifacts.sublist_select source.distinctDependencies).nodup
    source.nodup_distinctDependencies
  refine Option.ext fun a => ?_
  rw [show board.dependencyArtifacts source
      = .ofList (board.artifacts.select source.distinctDependencies) from rfl,
    NameMap.find?_ofList hnodup, NameMap.mem_select, Source.mem_distinctDependencies]
  split <;> simp_all

theorem Supplied.eq {board : Board} {source : Source} {dependencies : NameMap Artifact}
    (h : Supplied board source dependencies) : dependencies = board.dependencyArtifacts source := by
  refine NameMap.ext_find? fun n => ?_
  rw [find?_dependencyArtifacts]
  split
  · next hn =>
    obtain ⟨a, ha, hboard⟩ := h.artifacts n hn
    rw [ha, hboard]
  · next hn =>
    by_contra hsome
    have hmem := NameMap.mem_names.mpr (Option.ne_none_iff_exists'.mp hsome)
    exact hn (Source.mem_distinctDependencies.mp (h.names.mem_iff.mp hmem))

theorem Orderly.supplied {env : Environment} {board : Board} {flights : List Flight} (hp : p.Valid)
    (ho : Orderly p env board flights) {n : String} {source : Source} (hn : n ∈ board.ready)
    (hc : board.causes.find? n = none) (hs : p.graph.find? n = some source) :
    Supplied board source (board.dependencyArtifacts source) := by
  have hfree : board.blame? p n = none := (ho.accounts.causes n).symm.trans hc
  have howed := ((ho.tracks.frontier.ready_iff n).mp hn).2.2
  have hhas : ∀ d ∈ source.distinctDependencies, ∃ a, board.artifacts.find? d = some a := fun d hd => by
    have hneed : p.graph.Needs n d := (hp.needs_iff hs).mpr (Source.mem_distinctDependencies.mp hd)
    obtain ⟨-, r, hr, rfl, hbad, hskip⟩ := ho.needs_well howed hfree hneed
    obtain ⟨a, hfind, -⟩ := ho.stocked.present r hr hbad hskip
    exact ⟨a, hfind⟩
  have hnames := NameMap.map_fst_select hhas
  have hnodup : ((board.artifacts.select source.distinctDependencies).map (·.1)).Nodup := by
    rw [hnames]
    exact source.nodup_distinctDependencies
  have hperm := NameMap.names_ofList hnodup
  rw [hnames] at hperm
  refine ⟨hperm, fun d hd => ?_⟩
  have hd := Source.mem_distinctDependencies.mpr hd
  obtain ⟨a, ha⟩ := hhas d hd
  exact ⟨a, (NameMap.find?_ofList hnodup).mpr (NameMap.mem_select.mpr ⟨hd, ha⟩), ha⟩

theorem Run.supplied (hp : p.Valid) (hr : Run b p meddles (.initial p c) es s) :
    ∀ f ∈ s.flights, Supplied s.board f.source f.dependencies := by
  refine hr.induction_kept (I := fun s => ∀ f ∈ s.flights, Supplied s.board f.source f.dependencies) hp
    (fun s e t _ hk h hs => ?_) (fun s c h _ => h) (.initial hp b.environment c)
    fun f hf => absurd hf List.not_mem_nil
  have hold : ∀ source dependencies, Supplied s.board source dependencies →
      Supplied t.board source dependencies := fun source dependencies hd => by
    refine ⟨hd.names, fun d hmem => ?_⟩
    obtain ⟨a, ha, hboard⟩ := hd.artifacts d hmem
    exact ⟨a, ha, hs.artifacts_subset hk hboard⟩
  refine hs.flights (fun f hf => hold _ _ (h f hf)) (fun n source hphase hn hc hsource => ?_)
    fun f hf turn _ => hold _ _ (h f hf)
  have ho := hk.orderly (.inl hphase)
  exact hold _ _ (ho.supplied hp (Board.mem_ready_of_next? hn) hc hsource)

/-- A unit was recorded as a success, with an artifact and its key. -/
def Recorded (board : Board) (n : String) (a : Artifact) : Prop :=
  ∃ r ∈ board.results, r.name = n ∧ r.outcome.isSuccess = true ∧ r.key = some a.key ∧
    r.artifact = some a.ref

/-- In the course of a run a unit came to its end with an artifact, and its result was taken up. -/
def Completed (b : Builder σ) (p : Plan) (meddles : Caches σ → Caches σ → Prop) (first : State σ)
    (es : List Event) (s : State σ) (n : String) (a : Artifact) : Prop :=
  ∃ before i duration after u v f g, es = before ++ .join i duration :: after ∧
    Run b p meddles first before u ∧ u.step? b p (.join i duration) = some v ∧ Run b p meddles v after s ∧
    u.flights[i]? = some f ∧ f.name = n ∧ f.stage = .ended g ∧ g.artifact? = some a

theorem Run.within_keyLimits (hr : Run b p meddles (.initial p c) es s) :
    ∀ f ∈ s.flights, f.stage.Within b.client f.keyLimits :=
  hr.induction (I := fun s => ∀ f ∈ s.flights, f.stage.Within b.client f.keyLimits)
    (fun _ _ _ _ h hs => hs.flights h (fun _ _ _ _ _ _ => trivial) fun f hf _ _ =>
      Flight.respects_keyLimits.work (h f hf))
    (fun _ _ h _ => h) fun _ hf => absurd hf List.not_mem_nil

/-- Every artifact on the board came of the unit in the run, and is recorded with its key. -/
theorem Run.artifacts (hr : Run b p meddles (.initial p c) es s) {n : String} {a : Artifact}
    (ha : s.board.artifacts.find? n = some a) :
    Completed b p meddles (.initial p c) es s n a ∧ Recorded s.board n a := by
  revert n a
  refine Run.history (I := fun es s => ∀ {n a}, s.board.artifacts.find? n = some a →
    Completed b p meddles (.initial p c) es s n a ∧ Recorded s.board n a) ?_ ?_ ?_ hr
  · intro es s e t hr h hs n a ha
    have hstep := step_of_step? hs
    rcases hstep.artifacts_new ha with hold | ⟨i, duration, f, g, rfl, hf, hn, hg, hga, hmem⟩
    · obtain ⟨⟨before, i, duration, after, u, v, f, g, hes, hu, huv, hv, hf⟩, r, hmem, hrecorded⟩ := h hold
      refine ⟨⟨before, i, duration, after ++ [e], u, v, f, g, ?_, hu, huv, hv.trans (.event hs .nil), hf⟩,
        r, hstep.results_subset hmem, hrecorded⟩
      rw [hes, List.append_assoc, List.cons_append]
    · have hkey : a.key = f.key := by
        have := hr.within_keyLimits f (List.mem_of_getElem? hf)
        rw [hg] at this
        exact this a hga
      refine ⟨⟨es, i, duration, [], s, t, f, g, rfl, hr, hs, .nil, hf, hn, hg, hga⟩, _, hmem, hn,
        Ending.isSuccess_outcome.mpr ⟨a, hga⟩, ?_, ?_⟩
      · rw [State.resultOf, hkey]
      · rw [State.resultOf, hga, Option.map_some]
  · intro es s c' hr h hm n a ha
    obtain ⟨⟨before, i, duration, after, u, v, f, g, hes, hu, huv, hv, hf⟩, hrecorded⟩ := h ha
    refine ⟨⟨before, i, duration, after, u, v, f, g, hes, hu, huv, ?_, hf⟩, hrecorded⟩
    simpa using hv.trans (.meddle hm .nil)
  · intro n a ha
    cases ha

/-- A result that was recorded is the one in the report, whatever comes in between. -/
theorem Run.reported (hp : p.Valid) (hk : s.Kept p b.environment) (hr : Run b p meddles s es t)
    {r : UnitResult} (hmem : r ∈ s.board.results) {startedAt : Timestamp} {elapsed : Duration}
    {report : Report} (h : t.report startedAt elapsed = .ok report) :
    report.results.find? r.name = some r := by
  have hkept : t.Kept p b.environment := hr.induction (fun _ _ _ _ h hs => h.step hp hs) (fun _ _ h _ => h) hk
  have hmem : r ∈ t.board.results :=
    hr.induction (I := fun s => r ∈ s.board.results) (fun _ _ _ _ h hs => hs.results_subset h)
      (fun _ _ h _ => h) hmem
  obtain rfl := State.eq_of_report h
  have hnodup : ((t.board.results.map fun r => (r.name, r)).map (·.1)).Nodup := by
    simpa [Function.comp_def] using (hkept.once hp).2
  exact (NameMap.find?_ofList hnodup).mpr (List.mem_map_of_mem hmem)

/-- An artifact is what came of a unit in a run; the unit was recorded as a success, and every report
to come has this result, with the key of the artifact. -/
structure Delivered (b : Builder σ) (p : Plan) (meddles : Caches σ → Caches σ → Prop) (first : State σ)
    (es : List Event) (s : State σ) (n : String) (a : Artifact) : Prop where
  completed : Completed b p meddles first es s n a
  recorded : ∃ r ∈ s.board.results, r.name = n ∧ r.outcome.isSuccess = true ∧ r.key = some a.key ∧
    r.artifact = some a.ref ∧ ∀ es' t startedAt elapsed report, Run b p meddles s es' t →
      t.report startedAt elapsed = .ok report → report.results.find? n = some r

/-- What holds of the compilations of a build at every moment. -/
structure Disciplined (b : Builder σ) (p : Plan) (meddles : Caches σ → Caches σ → Prop) (first : State σ)
    (sources : List Source) (es : List Event) (s : State σ) : Prop where
  /-- No unit is compiled twice. -/
  once : (s.compilations.map (·.1)).Nodup
  /-- No more units are in flight than there are workers. -/
  bounded : s.flights.length ≤ b.workers
  /-- A step without a compilation does not ask the compiler. -/
  silent : ∀ e t, s.step? b p e = some t → t.compilations = s.compilations →
    ∀ compiler, s.step? { b with compiler } p e = some t
  /-- A step with a compilation asks the compiler for that alone. -/
  compiles : ∀ e t, s.step? b p e = some t → t.compilations ≠ s.compilations →
    ∃ source ∈ sources, ∃ dependencies, t.compilations = s.compilations ++ [(source.name, dependencies)] ∧
      (∀ compiler : Compiler, compiler source dependencies = b.compiler source dependencies →
        s.step? { b with compiler } p e = some t) ∧
      dependencies.names.Perm source.distinctDependencies ∧
      ∀ d ∈ source.dependencies, ∃ a, dependencies.find? d = some a ∧
        Delivered b p meddles first es s d a

/-- In every run of a build of accepted units, whatever the caches hold and whatever others do to
them: each unit is compiled once at most, when all its dependencies have been recorded as successes,
and on exactly what came of them. -/
theorem compiles_in_order (b : Builder σ) (c : Caches σ) {sources : List Source}
    (hp : Plan.ofSources sources = .ok p) (hr : Run b p meddles (.initial p c) es s) :
    Disciplined b p meddles (.initial p c) sources es s := by
  obtain ⟨hv, rfl⟩ := Plan.ofSources_ok hp
  have hk := hr.kept hv
  refine ⟨(hr.sparing hv).nodup, hr.length_flights_le, fun e t ht hsame compiler => ?_,
    fun e t ht hmore => ?_⟩
  · refine State.step?_congr ht fun i turn f he hf hc => ?_
    subst he
    rw [compilations_of_step? hf ht] at hsame
    simp [State.compilation, hc, Stage.isCompile] at hsame
  · obtain ⟨i, turn, f, rfl, hf, hc, hcompilations⟩ :=
      (step_of_step? ht).compilations.resolve_left hmore
    have hmem := List.mem_of_getElem? hf
    have hsupplied := hr.supplied hv f hmem
    refine ⟨f.source, (Graph.find?_eq_some.mp (hk.sent hmem).source).1, f.dependencies, hcompilations,
      fun compiler hsame => ?_, hsupplied.names, fun d hd => ?_⟩
    · refine State.step?_congr ht fun j turn' g he hg _ => ?_
      cases he
      obtain rfl : f = g := Option.some.inj (hf.symm.trans hg)
      exact hsame
    · obtain ⟨a, ha, hboard⟩ := hsupplied.artifacts d hd
      obtain ⟨hcompleted, r, hmem, rfl, hsuccess, hkey, hartifact⟩ := hr.artifacts hboard
      exact ⟨a, ha, hcompleted, r, hmem, rfl, hsuccess, hkey, hartifact,
        fun es' t startedAt elapsed report hrun hreport => hrun.reported hv hk hmem hreport⟩

/-- The first unit is compiled and recorded, and the second waits for the compiler. -/
def upToSecond : List Event :=
  firstEvents ++ [.release, .work 0 (.plain 0), .work 0 (.plain 0)]

theorem compiles_in_order_pair : Plan.ofSources pair = .ok pairPlan ∧ ∃ s t : State Unit,
    (State.initial pairPlan emptyCaches).steps? acceptingBuilder pairPlan upToSecond = some s ∧
    s.step? acceptingBuilder pairPlan (.work 0 (.plain 0)) = some t ∧
    s.compilations.map (·.1) = ["a"] ∧
    t.compilations.map (fun call => (call.1, call.2.names)) = [("a", []), ("b", ["a"])] ∧
    Disciplined acceptingBuilder pairPlan (fun _ _ => False) (.initial pairPlan emptyCaches) pair
      upToSecond s := by
  have hp : Plan.ofSources pair = .ok pairPlan := by cbv
  have hsteps : ((State.initial pairPlan emptyCaches).steps? acceptingBuilder pairPlan upToSecond).any
      (fun s => s.compilations.map (·.1) = ["a"] && (s.step? acceptingBuilder pairPlan
        (.work 0 (.plain 0))).any fun t =>
          t.compilations.map (fun call => (call.1, call.2.names)) = [("a", []), ("b", ["a"])]) = true := by
    decide +kernel
  obtain ⟨s, hs, hsteps⟩ := (Option.any_eq_true _ _).mp hsteps
  obtain ⟨hfirst, hstep⟩ := Bool.and_eq_true_iff.mp hsteps
  obtain ⟨t, ht, hsecond⟩ := (Option.any_eq_true _ _).mp hstep
  exact ⟨hp, s, t, hs, ht, of_decide_eq_true hfirst, of_decide_eq_true hsecond,
    compiles_in_order acceptingBuilder emptyCaches hp (.of_steps? hs)⟩

end Build
end BuildCache
