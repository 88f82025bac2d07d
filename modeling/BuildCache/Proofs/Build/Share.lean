import BuildCache.Proofs.Build.Delivered
import BuildCache.Proofs.Build.Reuse

/-! # Shared remotes: what one machine delivered serves every other -/
namespace BuildCache

variable {σ : Type}

/-- For the key of every unit something was delivered, of a length in 64 bits. -/
def Plan.Provided (p : Plan) (env : Environment) (delivered : List Artifact) : Prop :=
  ∀ n ∈ p.graph.names, ∀ k, (p.keys env).find? n = some k →
    ∃ a, Artifact.last? delivered k = some a ∧ a.size < Bytes.range 8

theorem Artifact.parse_last? {delivered : List Artifact} {k : CacheKey} {a : Artifact}
    (h : last? delivered k = some a) (hsize : a.size < Bytes.range 8) : parse k a.encode = .ok a.reread := by
  obtain ⟨-, rfl⟩ := mem_of_last? h
  rw [parse_encode hsize, if_pos rfl]

namespace Build

/-- Some unit with this key was fetched; it is in flight, or its result was taken up. -/
def State.Fetched (s : State σ) (k : CacheKey) : Prop :=
  (∃ r ∈ s.board.results, r.outcome = .remoteHit ∧ r.key = some k) ∨
    ∃ f ∈ s.flights, f.key = k ∧ ∃ a, f.stage = .ended (.remoteHit a)

variable {b : Builder σ} {p : Plan} {held : σ → (CacheKey → Option Bytes) → Prop}
  {delivered : List Artifact} {s t : State σ} {e : Event} {es : List Event}

/-- An artifact is what was delivered last under a key, as it is read back. -/
def Refetched (delivered : List Artifact) (k : CacheKey) (a : Artifact) : Prop :=
  (Artifact.last? delivered k).map (·.reread) = some a

/-- What may come of a unit of a build whose remote has something for its key: it is fetched, unless the
local store has got it by now. -/
def serviceCourse (delivered : List Artifact) (s : State σ) (f : Flight) : Stage.Course where
  answer raw? := raw? = Artifact.stock delivered f.key
  compiles := False
  fetched := Refetched delivered f.key
  compiled _ := False
  ending
    | .localHit _ => s.Fetched f.key
    | .remoteHit a => Refetched delivered f.key a
    | .compiled _ | .failed _ | .cancelled => False

/-- Nothing is compiled or published, all units are hits, and the local store has nothing but what was
fetched. -/
structure Serving (b : Builder σ) (p : Plan) (held : σ → (CacheKey → Option Bytes) → Prop)
    (delivered : List Artifact) (s : State σ) : Prop where
  token : s.cancelled = false
  remote : s.caches.remote.Has held (Artifact.stock delivered)
  compilations : s.compilations = []
  publications : s.publications = []
  store : s.caches.store.Sound fun k data => s.Fetched k ∧ ∃ a, Artifact.last? delivered k = some a ∧ a.data = data
  flights : ∀ f ∈ s.flights, f.stage.On (serviceCourse delivered s f)
  results : ∀ r ∈ s.board.results, r.name ∈ p.graph.names ∧
    ∃ k, r.key = some k ∧ (p.keys b.environment).find? r.name = some k ∧
      (r.outcome = .remoteHit ∨ r.outcome = .localHit ∧ s.Fetched k)
  aborted : ∀ l failure, s.phase ≠ .aborted l failure

namespace Serving

theorem initial {c : Caches σ} (hempty : c.store.Bare) (hheld : held c.remote.remote (Artifact.stock delivered)) :
    Serving b p held delivered (.initial p c) where
  token := rfl
  remote := ⟨rfl, hheld⟩
  compilations := rfl
  publications := rfl
  store k content a hfile hdecode := (hempty k content a hfile hdecode).elim
  flights _ hf := absurd hf List.not_mem_nil
  results _ hr := absurd hr List.not_mem_nil
  aborted := nofun

private theorem course_mono {f : Flight} {stage : Stage} (hfetched : s.Fetched f.key → t.Fetched f.key)
    (h : stage.On (serviceCourse delivered s f)) : stage.On (serviceCourse delivered t f) := by
  cases stage with
  | lookup | fetch | await | adopt | compile | keep | lost => exact h
  | ended e =>
    cases e with
    | localHit => exact hfetched h
    | remoteHit | compiled | failed | cancelled => exact h

private theorem steers (hread : s.caches.store.Readable) (h : Serving b p held delivered s) (turn : Turn) {f : Flight}
    (hprovided : ∃ a, Artifact.last? delivered f.key = some a ∧ a.size < Bytes.range 8) :
    f.Steers b turn s.caches.store (Artifact.stock delivered) (serviceCourse delivered s f) := by
  obtain ⟨last, hlast, hsize⟩ := hprovided
  have hstock : Artifact.stock delivered f.key = some last.encode := by rw [Artifact.stock, hlast, Option.map_some]
  have hparse := Artifact.parse_last? hlast hsize
  -- the remote has something that is read back, so a fetch is neither a miss nor garbled
  refine ⟨fun a hget => ?_, hread.get_ne_crashed f.key, rfl, fun hnone => ?_, fun raw a hraw hok => ?_,
    fun raw kind hraw herror => ?_, fun raw hraw => ?_, fun _ hfetched => hfetched, fun _ hc => hc.elim,
    fun _ hc => hc.elim, fun _ hc => hc.elim⟩
  · obtain ⟨raw, hfile, hparse⟩ := Store.get_some hget
    exact (h.store f.key raw a hfile hparse).1
  · cases hnone.trans hstock
  · obtain rfl := Option.some.inj (hraw.trans hstock)
    obtain rfl := Except.ok.inj (hparse.symm.trans hok)
    exact congrArg (Option.map Artifact.reread) hlast
  · obtain rfl := Option.some.inj (hraw.trans hstock)
    cases hparse.symm.trans herror
  · obtain rfl := Option.some.inj (hraw.trans hstock)
    exact fun n => Artifact.le_of_mem_encode hsize

private theorem provided_of_mem (hk : s.Kept p b.environment) (hprovided : p.Provided b.environment delivered)
    {f : Flight} (hf : f ∈ s.flights) :
    ∃ a, Artifact.last? delivered f.key = some a ∧ a.size < Bytes.range 8 :=
  hprovided f.name (Graph.mem_names_of_find? (hk.sent hf).source) f.key (hk.sent hf).key

private theorem aborted_step (hclient : b.client.Relies held) (hread : s.caches.store.Readable)
    (hk : s.Kept p b.environment) (hprovided : p.Provided b.environment delivered) (h : Serving b p held delivered s)
    (hs : Step b p s e t) : ∀ l failure, t.phase ≠ .aborted l failure :=
  hs.ne_aborted hclient h.token h.remote (fun _ hf turn => h.steers hread turn (provided_of_mem hk hprovided hf))
    h.flights h.aborted

private theorem fetched_step (haborted : ∀ l failure, t.phase ≠ .aborted l failure) (hs : Step b p s e t)
    {k : CacheKey} (hk : s.Fetched k) : t.Fetched k := by
  rcases hk with ⟨r, hr, hfetched⟩ | ⟨f, hf, hkey, a, hstage⟩
  · exact .inl ⟨r, hs.results_subset hr, hfetched⟩
  · rcases hs.flight hf with ⟨stage, hmem, hsame⟩ | ⟨g, duration, hg, hrecorded⟩ | ⟨l, failure, hgiven⟩
    · obtain rfl := hsame (by rw [hstage]; rfl)
      exact .inr ⟨f, hmem, hkey, a, hstage⟩
    · obtain rfl : .remoteHit a = g := Stage.ended.inj (hstage.symm.trans hg)
      exact .inl ⟨State.resultOf f (.remoteHit a) duration, hrecorded, rfl, congrArg some hkey⟩
    · exact absurd hgiven (haborted l failure)

private theorem flights_step (hclient : b.client.Relies held) (hread : s.caches.store.Readable)
    (hk : s.Kept p b.environment) (hprovided : p.Provided b.environment delivered) (h : Serving b p held delivered s)
    (hfetched : ∀ k, s.Fetched k → t.Fetched k) (hs : Step b p s e t) :
    ∀ f ∈ t.flights, f.stage.On (serviceCourse delivered t f) :=
  hs.on_course hclient h.token h.remote (fun _ hf turn => h.steers hread turn (provided_of_mem hk hprovided hf))
    (fun f _ _ => course_mono (hfetched f.key)) h.flights

private theorem store_step (h : Serving b p held delivered s) (hfetched : ∀ k, s.Fetched k → t.Fetched k)
    (hs : Step b p s e t) :
    t.caches.store.Sound fun k data => t.Fetched k ∧ ∃ a, Artifact.last? delivered k = some a ∧ a.data = data := by
  have hsound : s.caches.store.Sound fun k data =>
      t.Fetched k ∧ ∃ a, Artifact.last? delivered k = some a ∧ a.data = data :=
    fun k content a hfile hdecode => (h.store k content a hfile hdecode).imp_left (hfetched k)
  refine hs.sound_store hsound fun f hf a hstored => ?_
  have hon := h.flights f hf
  rcases hstored with ⟨hadopt, hstored⟩ | ⟨hkeep, -⟩
  · rw [hadopt] at hon
    obtain ⟨last, hlast, rfl⟩ := Option.map_eq_some_iff.mp hon
    exact ⟨.inr ⟨_, hstored, rfl, _, rfl⟩, last, hlast, rfl⟩
  · rw [hkeep] at hon
    exact hon.elim

private theorem remote_step (hclient : b.client.Relies held) (h : Serving b p held delivered s)
    (haborted : ∀ l failure, t.phase ≠ .aborted l failure) (hs : Step b p s e t) :
    t.caches.remote.Has held (Artifact.stock delivered) := by
  cases hs with
  | finish | wait | skip | send | lose | join | abort | cancel => exact h.remote
  | work hf ho =>
    simp only [State.work, h.token]
    exact Flight.has_work hclient h.remote (h.flights _ (List.mem_of_getElem? hf))
  | perish => exact absurd rfl (haborted _ _)
  | publish hq =>
    rw [h.publications] at hq
    cases hq

private theorem compilations_step (h : Serving b p held delivered s) (hs : Step b p s e t) : t.compilations = [] := by
  rcases hs.compilations with hsame | ⟨i, turn, f, -, hf, hcompile, -⟩
  · exact hsame.trans h.compilations
  · have hon := h.flights f (List.mem_of_getElem? hf)
    rw [hcompile] at hon
    exact hon.elim

private theorem publications_step (h : Serving b p held delivered s) (hs : Step b p s e t) : t.publications = [] := by
  cases hs with
  | finish | wait | skip | send | lose | work | abort | cancel => exact h.publications
  | perish => rfl
  | @join i duration f g hphase hf hg =>
    have hon := h.flights f (List.mem_of_getElem? hf)
    rw [hg] at hon
    rw [State.join, h.publications]
    cases g with
    | localHit | remoteHit => rfl
    | compiled | failed | cancelled => exact hon.elim
  | publish hq =>
    rw [h.publications] at hq
    cases hq

private theorem results_step (hp : p.Valid) (hk : s.Kept p b.environment) (h : Serving b p held delivered s)
    (hfetched : ∀ k, s.Fetched k → t.Fetched k) (hs : Step b p s e t) :
    ∀ r ∈ t.board.results, r.name ∈ p.graph.names ∧
      ∃ k, r.key = some k ∧ (p.keys b.environment).find? r.name = some k ∧
        (r.outcome = .remoteHit ∨ r.outcome = .localHit ∧ t.Fetched k) := by
  intro r hr
  have hold : r ∈ s.board.results → r.name ∈ p.graph.names ∧
      ∃ k, r.key = some k ∧ (p.keys b.environment).find? r.name = some k ∧
        (r.outcome = .remoteHit ∨ r.outcome = .localHit ∧ t.Fetched k) := fun hr => by
    obtain ⟨hname, k, hkey, hplan, houtcome⟩ := h.results r hr
    exact ⟨hname, k, hkey, hplan, houtcome.imp_right (.imp_right (hfetched k))⟩
  rcases hs.results_new hr with hr | ⟨hphase, hf, hstuck, rfl, -⟩ | ⟨hphase, n, cause, hcause, rfl⟩ |
    ⟨i, duration, f, g, hf, hg, -, rfl⟩
  · exact hold hr
  · rw [State.finish, hk.close_eq hp h.token hphase hf hstuck] at hr
    exact hold hr
  · obtain ⟨r, hr, hbad, -⟩ := hk.exists_bad hphase hcause
    obtain ⟨-, k, -, -, hremote | ⟨hlocal, -⟩⟩ := h.results r hr
    · simp [UnitResult.isBad, hremote] at hbad
    · simp [UnitResult.isBad, hlocal] at hbad
  · have hmem := List.mem_of_getElem? hf
    have hon := h.flights f hmem
    rw [hg] at hon
    refine ⟨Graph.mem_names_of_find? (hk.sent hmem).source, f.key, rfl, (hk.sent hmem).key, ?_⟩
    cases g with
    | localHit => exact .inr ⟨rfl, hfetched f.key hon⟩
    | remoteHit => exact .inl rfl
    | compiled | failed | cancelled => exact hon.elim

theorem step (hclient : b.client.Relies held) (hp : p.Valid) (hprovided : p.Provided b.environment delivered)
    (hread : s.caches.store.Readable) (he : e ≠ .cancel) (hk : s.Kept p b.environment)
    (h : Serving b p held delivered s) (hs : Step b p s e t) : Serving b p held delivered t := by
  have haborted := h.aborted_step hclient hread hk hprovided hs
  have hfetched : ∀ k, s.Fetched k → t.Fetched k := fun _ => fetched_step haborted hs
  exact {
    token := (hs.cancelled_eq he).trans h.token
    remote := h.remote_step hclient haborted hs
    compilations := h.compilations_step hs
    publications := h.publications_step hs
    store := h.store_step hfetched hs
    flights := h.flights_step hclient hread hk hprovided hfetched hs
    results := h.results_step hp hk hfetched hs
    aborted := haborted }

end Serving

theorem State.serving {c : Caches σ} (hclient : b.client.Relies held) (hb : b.compiler.Sized) (hp : p.Valid)
    (hprovided : p.Provided b.environment delivered) (hempty : c.store.Bare) (hreadable : c.store.Readable)
    (hheld : held c.remote.remote (Artifact.stock delivered))
    (h : (State.initial p c).steps? b p es = some s) (he : .cancel ∉ es) : Serving b p held delivered s := by
  refine State.history (I := fun es s => .cancel ∉ es → Serving b p held delivered s)
    (fun _ => .initial hempty hheld) (fun es u e v hu hi hv hnot => ?_) h he
  rw [List.mem_append, List.mem_singleton] at hnot
  obtain ⟨hbefore, hlast⟩ := not_or.mp hnot
  have hr : Run b p Caches.SameStore (.initial p c) es u := .of_steps? hu
  exact (hi hbefore).step hclient hp hprovided (hr.readable hb hreadable) (fun hcancel => hlast hcancel.symm)
    (hr.kept hp) (step_of_step? hv)

/-- What holds at every moment of a build on empty caches. -/
structure Publishes (b : Builder σ) (p : Plan) (delivered : List Artifact) (s : State σ) : Prop where
  /-- A build that is not over can go on. -/
  continues : s.isOver = false → ∃ e t, e ≠ .cancel ∧ s.step? b p e = some t
  completes : ∀ l failure, s.phase ≠ .aborted l failure
  succeeds : ∀ r ∈ s.board.results, r.outcome.isSuccess = true
  /-- There is one publication for each unit reported as compiled, of its artifact, and no other. -/
  once : ((delivered ++ s.queued).map some).Perm s.board.compiled
  /-- The publications come to their ends if they are waited for. -/
  drains : ∃ es t, (∀ e ∈ es, ∃ i turn, e = .publish i turn) ∧ s.steps? b p es = some t ∧
    t.publications = [] ∧ t.board = s.board ∧ t.phase = s.phase

/-- What holds at every moment of a build on a local store that was empty, after an earlier build elsewhere. -/
structure Served (b : Builder σ) (p : Plan) (first : Store) (delivered : List Artifact) (earlier s : State σ) :
    Prop where
  /-- A build that is not over can go on. -/
  continues : s.isOver = false → ∃ e t, e ≠ .cancel ∧ s.step? b p e = some t
  completes : ∀ l failure, s.phase ≠ .aborted l failure
  uncompiled : s.compilations = []
  unpublished : s.publications = []
  /-- Every unit is a hit, with the key that it had; a local one if its key was fetched for another unit. -/
  hits : ∀ r ∈ s.board.results, ∃ q ∈ earlier.board.results, q.name = r.name ∧ ∃ k, q.key = some k ∧
    r.key = some k ∧ (r.outcome = .remoteHit ∨ r.outcome = .localHit ∧ s.Fetched k)
  /-- A local store without a limit has for each key what was published last under it. -/
  holds : ∀ place, first.Undisturbed place → first.capacity = none → ∀ r ∈ s.board.results, ∀ k, r.key = some k →
    ∃ a a', Artifact.last? delivered k = some a ∧ s.caches.store.Holds k a' ∧ a'.data = a.data
  /-- In the end all units are reported, and the ones that were fetched among them. -/
  reported : s.phase = .finished → ∀ startedAt elapsed, ∃ report, s.report startedAt elapsed = .ok report ∧
    (∀ n ∈ p.graph.names, ∃ r ∈ s.board.results, report.results.find? n = some r) ∧
    ∀ k, s.Fetched k → ∃ r, report.results.find? r.name = some r ∧ r.outcome = .remoteHit ∧ r.key = some k

/-- Once a build has ended well and its publications as well, something was delivered for every unit. -/
private theorem Delivering.provided (hp : p.Valid) (hk : s.Kept p b.environment)
    (h : Delivering b p held delivered s) (hsuccess : ∀ r ∈ s.board.results, r.outcome.isSuccess = true)
    (hphase : s.phase = .finished) (hdrained : s.publications = []) : p.Provided b.environment delivered := by
  -- nothing is in flight or queued any more, so what was compiled was delivered
  have hmade : s.made delivered = delivered := by
    simp [State.made, State.queued, State.landed, hdrained, hk.flights_eq_nil hphase]
  intro n hn k hplan
  obtain ⟨r, hr, rfl⟩ := hk.exists_result hp hphase hn
  obtain ⟨l, -, hl, a, ha, rfl⟩ := h.results r hr (hsuccess r hr)
  obtain rfl : a.key = k := Option.some.inj (hl.symm.trans hplan)
  rw [hmade] at ha
  obtain ⟨last, hlast⟩ := Artifact.exists_last? ha
  refine ⟨last, hlast, h.sized last ?_⟩
  rw [hmade]
  exact (Artifact.mem_of_last? hlast).1

private theorem State.Kept.reports_fetched (hp : p.Valid) (hk : s.Kept p b.environment)
    (hphase : s.phase = .finished) (startedAt : Timestamp) (elapsed : Duration) :
    ∃ report, s.report startedAt elapsed = .ok report ∧
      (∀ n ∈ p.graph.names, ∃ r ∈ s.board.results, report.results.find? n = some r) ∧
      ∀ k, s.Fetched k → ∃ r, report.results.find? r.name = some r ∧ r.outcome = .remoteHit ∧ r.key = some k := by
  obtain ⟨report, hreport, hperm, hfind⟩ := hk.exists_report hp hphase startedAt elapsed
  refine ⟨report, hreport, fun n hn => ?_, fun k hfetched => ?_⟩
  · obtain ⟨r, hr⟩ := NameMap.mem_names.mp (hperm.mem_iff.mpr hn)
    exact ⟨r, (State.mem_results_of_report hreport hr).1, hr⟩
  · rcases hfetched with ⟨r, hr, houtcome, hkey⟩ | ⟨f, hf, -⟩
    · exact ⟨r, (hfind r).mpr hr, houtcome, hkey⟩
    · rw [hk.flights_eq_nil hphase] at hf
      cases hf

/-- Another machine with an empty local store, in the environment of a build and with the remote that it
left. -/
structure Elsewhere (b : Builder σ) (held : σ → (CacheKey → Option Bytes) → Prop) (s : State σ) (b' : Builder σ)
    (c : Caches σ) : Prop where
  client : b'.client.Relies held
  environment : b'.environment = b.environment
  sized : b'.compiler.Sized
  empty : c.store.Bare
  readable : c.store.Readable
  remote : c.remote.remote = s.caches.remote.remote

private theorem Delivering.served (hp : p.Valid) (hk : s.Kept p b.environment) (h : Delivering b p held delivered s)
    (hsuccess : ∀ r ∈ s.board.results, r.outcome.isSuccess = true) (hphase : s.phase = .finished)
    (hdrained : s.publications = []) {b' : Builder σ} {c : Caches σ} (helse : Elsewhere b held s b' c)
    (ht : (State.initial p c).steps? b' p es = some t) (he : .cancel ∉ es) :
    Served b' p c.store delivered s t := by
  have hprovided := h.provided hp hk hsuccess hphase hdrained
  rw [← helse.environment] at hprovided
  have hr : Run b' p Caches.SameStore (.initial p c) es t := .of_steps? ht
  have hserving := State.serving helse.client helse.sized hp hprovided helse.empty helse.readable
    (helse.remote ▸ h.remote.held) ht he
  refine ⟨State.exists_step? (hr.kept hp), hserving.aborted, hserving.compilations, hserving.publications,
    fun r hmem => ?_, fun place hundisturbed hunlimited r hmem k hkey => ?_, (hr.kept hp).reports_fetched hp⟩
  · obtain ⟨hn, k, hkey, hfind, houtcome⟩ := hserving.results r hmem
    obtain ⟨q, hq, hname⟩ := hk.exists_result hp hphase hn
    obtain ⟨l, hl, hplan, -⟩ := h.results q hq (hsuccess q hq)
    rw [hname, ← helse.environment, hfind, Option.some.injEq] at hplan
    exact ⟨q, hq, hname, k, hplan ▸ hl, hkey, houtcome⟩
  · obtain ⟨-, l, -, -, houtcome⟩ := hserving.results r hmem
    have hok : r.outcome.isSuccess = true := by
      rcases houtcome with ho | ⟨ho, -⟩ <;> rw [ho] <;> rfl
    obtain ⟨l, a', hl, hheld⟩ := (hr.stored helse.sized hundisturbed hunlimited).results r hmem hok
    obtain rfl := Option.some.inj (hkey.symm.trans hl)
    obtain ⟨raw, hfile, hdecode⟩ := Store.get_some hheld
    obtain ⟨-, a, hlast, hdata⟩ := hserving.store k raw a' hfile hdecode
    exact ⟨a, a', hlast, hheld, hdata.symm⟩

/-- One machine builds on empty caches with a compiler that fails for no unit. Once its build and its
publications have ended, every other machine gets all units from the remote. -/
theorem serves_other_machines (hclient : b.client.Relies held) (hb : b.compiler.Sized) {sources : List Source}
    (hp : Plan.ofSources sources = .ok p) {c : Caches σ} (hempty : c.store.Bare)
    (hreadable : c.store.Readable) (hnothing : held c.remote.remote fun _ => none)
    (h : (State.initial p c).steps? b p es = some s)
    (he : .cancel ∉ es) (hdelivers : s.Delivers b p) :
    es.length ≤ State.eventsPerUnit b * sources.length + 2 ∧
    Publishes b p ((State.initial p c).deliveries b p es) s ∧
    (s.phase = .finished → s.publications = [] → ∀ b' c', Elsewhere b held s b' c' →
      (∀ turn, ∃ t es', b'.build c' sources .never turn = .ok t ∧ t.isOver = true ∧
        (State.initial p c').steps? b' p es' = some t ∧ .cancel ∉ es') ∧
      ∀ es' t, (State.initial p c').steps? b' p es' = some t → .cancel ∉ es' →
        es'.length ≤ State.eventsPerUnit b' * sources.length + 2 ∧
        Served b' p c'.store ((State.initial p c).deliveries b p es) s t) := by
  have hplan := hp
  obtain ⟨hv, rfl⟩ := Plan.ofSources_ok hp
  have hr : Run b p Caches.SameStore (.initial p c) es s := .of_steps? h
  have hk := hr.kept hv
  have hdelivering := State.delivering hclient hb hv hempty hreadable hnothing h he
  have hsuccess := (hdelivering.succeeds hdelivers).1
  refine ⟨hr.length_le hv, ⟨State.exists_step? hk, hdelivering.aborted, hsuccess, hdelivering.balance,
    State.exists_drained hv hk⟩, fun hphase hdrained b' c' helse => ⟨fun turn => ?_, fun es' t h' he' => ?_⟩⟩
  · obtain ⟨t, es', ht, hover, hes', hnever⟩ := State.build_isOver (b := b') hplan c' .never turn
    exact ⟨t, es', ht, hover, hes', hnever rfl⟩
  · have hr' : Run b' p Caches.SameStore (.initial p c') es' t := .of_steps? h'
    exact ⟨hr'.length_le hv, hdelivering.served hv hk hsuccess hphase hdrained helse h' he'⟩

def sharingBuilder : Builder (KeyMap Bytes) := .of (fun _ _ => .output [])
    ⟨.memory, .noRetry, Duration.nanosPerSecond, true, .millisecond⟩ (.ofVersions "OTP-27" "0.1.0") 1

theorem relies_sharingBuilder : sharingBuilder.client.Relies fun m stock => ∀ k, m.find? k = stock k :=
  ⟨rfl, Backend.reliable_memory (Client.inTime_of_le (by decide))⟩

theorem bare_freshStore : freshStore.Bare := .of_directories (by decide)

theorem readable_freshStore : freshStore.Readable := undisturbed_freshStore.readable

theorem sized_sharingBuilder : sharingBuilder.compiler.Sized := by
  rintro s dependencies data ⟨⟩
  decide

/-- The first machine compiles the one unit and publishes it once; the other machine compiles nothing. -/
theorem serves_other_machines_twins : ∃ (s t : State (KeyMap Bytes)) (delivered : List Artifact),
    sharingBuilder.build ⟨freshStore, .initial []⟩ twins .never (.plain 0) = .ok s ∧
    (s.board.results.map fun r => (r.name, r.outcome)) = [("a", .compiled), ("c", .localHit)] ∧
    delivered.length = 1 ∧
    sharingBuilder.build ⟨freshStore, .initial s.caches.remote.remote⟩ twins .never (.plain 0) = .ok t ∧
    t.isOver = true ∧ Served sharingBuilder twinsPlan freshStore delivered s t := by
  have hp : Plan.ofSources twins = .ok twinsPlan := by cbv
  obtain ⟨s, es, hbuild, -, hes, hnever⟩ :=
    State.build_isOver (b := sharingBuilder) hp ⟨freshStore, .initial []⟩ .never (.plain 0)
  have hends : (sharingBuilder.build ⟨freshStore, .initial []⟩ twins .never (.plain 0)).toOption.map (fun s =>
      (s.phase, s.publications.length, s.board.results.map fun r => (r.name, r.outcome)))
        = some (.finished, 0, [("a", .compiled), ("c", .localHit)]) := by
    rw [Builder.build, hp]
    decide +kernel
  rw [hbuild] at hends
  have hstate := Option.some.inj hends
  simp only [Prod.mk.injEq, List.length_eq_zero_iff] at hstate
  obtain ⟨hphase, hdrained, hresults⟩ := hstate
  obtain ⟨-, hpublishes, hserves⟩ := serves_other_machines relies_sharingBuilder sized_sharingBuilder hp
    bare_freshStore readable_freshStore (fun _ => rfl) hes (hnever rfl) fun _ _ _ _ _ => ⟨[], rfl⟩
  obtain ⟨hbuilds, hruns⟩ := hserves hphase hdrained sharingBuilder ⟨freshStore, .initial s.caches.remote.remote⟩
    ⟨relies_sharingBuilder, rfl, sized_sharingBuilder, bare_freshStore, readable_freshStore, rfl⟩
  obtain ⟨t, es', hbuild', hover, hes', hnot⟩ := hbuilds (.plain 0)
  obtain ⟨-, hserved⟩ := hruns es' t hes' hnot
  refine ⟨s, t, _, hbuild, hresults, ?_, hbuild', hover, hserved⟩
  have hcount : s.board.compiled.length
      = ((s.board.results.map fun r => (r.name, r.outcome)).filter (·.2 = .compiled)).length := by
    simp [Board.compiled, List.filter_map, Function.comp_def]
  rw [hresults] at hcount
  simpa [State.queued, hdrained, hcount] using hpublishes.once.length_eq

end Build
end BuildCache
