import BuildCache.Proofs.Build.Course
import BuildCache.Proofs.Build.Stored

/-! # What builds deliver to a remote: what was compiled, each of it once -/
namespace BuildCache

variable {σ : Type}

/-- No file of a store holds an artifact of its key. -/
def Store.Bare (store : Store) : Prop := store.Sound fun _ _ => False

theorem Store.Bare.of_directories {store : Store} (h : ∀ e ∈ store.disk.tree, e.2 = .directory) : store.Bare := by
  intro k content a hfile _
  rw [Tree.node?, if_neg (artifactPath_ne_nil store.root k)] at hfile
  obtain ⟨e, he, hnode⟩ := Option.map_eq_some_iff.mp hfile
  rw [h e (List.mem_of_find?_eq_some he)] at hnode
  cases hnode

/-- What was compiled for a unit whose work is over. -/
def Stage.landed? : Stage → Option Artifact
  | ended (.compiled a) => some a
  | _ => none

@[simp] theorem Stage.landed?_eq_some {stage : Stage} {a : Artifact} :
    stage.landed? = some a ↔ stage = .ended (.compiled a) := by
  cases stage with
  | ended e => cases e <;> simp [landed?]
  | lookup | fetch | await | adopt | compile | keep | lost => simp [landed?]

/-- What is done for a unit as its work ends in some way. -/
def Flight.Before (b : Builder σ) (f : Flight) : Ending → Prop
  | .localHit _ => f.stage = .lookup
  | .remoteHit a => f.stage = .adopt a
  | .compiled a => f.stage = .keep a
  | .failed _ => f.stage = .compile ∧ ∀ data, b.compiler f.source f.dependencies ≠ .output data
  | .cancelled => True

theorem Flight.before_of_work {b : Builder σ} {cancelled : Bool} {turn : Build.Turn} {c : Caches σ} {f : Flight}
    (ho : f.stage.isOver = false) {e : Ending} (h : (f.work b cancelled turn c).stage = .ended e) : f.Before b e := by
  simp only [work] at h
  cases hs : f.stage with
  | lookup =>
    simp only [hs, lookup] at h
    split at h <;> cases h
    exact hs
  | fetch =>
    simp only [hs, fetch] at h
    obtain rfl := cancelled_of_fetched h
    trivial
  | await w =>
    simp only [hs, await] at h
    obtain rfl := cancelled_of_fetched h
    trivial
  | adopt a | keep a =>
    simp only [hs] at h
    cases h
    exact hs
  | compile =>
    simp only [hs, compile] at h
    split at h
    · cases h
    · next hrejected =>
      cases h
      exact ⟨hs, by simp [hrejected]⟩
    · next hcrashed =>
      cases h
      exact ⟨hs, by simp [hcrashed]⟩
  | ended | lost =>
    rw [hs] at ho
    cases ho

/-- The artifacts of the units that are reported as compiled, in the order of their results. -/
def Board.compiled (board : Board) : List (Option Artifact) :=
  (board.results.filter (·.outcome = .compiled)).map fun r => board.artifacts.find? r.name

theorem Board.compiled_record (p : Plan) {board board' : Board} (r : UnitResult)
    (hresults : board'.results = board.results)
    (hsame : ∀ q ∈ board.results, board'.artifacts.find? q.name = board.artifacts.find? q.name) :
    (board'.record p r).compiled
      = board.compiled ++ if r.outcome = .compiled then [board'.artifacts.find? r.name] else [] := by
  have hold : (board.results.filter (·.outcome = .compiled)).map (fun q => board'.artifacts.find? q.name)
      = board.compiled :=
    List.map_congr_left fun q hq => hsame q (List.mem_filter.mp hq).1
  simp only [compiled, record, hresults, List.filter_append, List.map_append] at hold ⊢
  rw [hold, List.append_cancel_left_eq]
  by_cases hr : r.outcome = .compiled <;> simp [hr]

theorem Board.compiled_close (p : Plan) (board : Board) : (board.close p).compiled = board.compiled := by
  simp [compiled, close, List.filter_append, List.filter_map, UnitResult.cancelled, Function.comp_def]

namespace Build

/-- The artifacts that were compiled for units in flight. -/
def State.landed (s : State σ) : List Artifact := s.flights.filterMap (·.stage.landed?)

/-- The artifacts whose publication is yet to begin. -/
def State.queued (s : State σ) : List Artifact := (s.publications.filter (·.wait.isNone)).map (·.artifact)

/-- All that was compiled, the part of it first that was delivered. -/
def State.made (delivered : List Artifact) (s : State σ) : List Artifact := delivered ++ s.queued ++ s.landed

/-- Something with this key was compiled. -/
def State.Covers (delivered : List Artifact) (s : State σ) (k : CacheKey) : Prop :=
  ∃ a ∈ s.made delivered, a.key = k

/-- Every call of the compiler gave an output. -/
def State.Delivers (b : Builder σ) (p : Plan) (s : State σ) : Prop :=
  ∀ n dependencies source, (n, dependencies) ∈ s.compilations → p.graph.find? n = some source →
    ∃ data, b.compiler source dependencies = .output data

variable {b : Builder σ} {p : Plan} {held : σ → (CacheKey → Option Bytes) → Prop}
  {delivered : List Artifact} {s t : State σ} {e : Event} {es : List Event}

theorem State.covers_of_flight {f : Flight} (hf : f ∈ s.flights) {a : Artifact}
    (h : f.stage = .ended (.compiled a)) : s.Covers delivered a.key :=
  ⟨a, List.mem_append_right _ (List.mem_filterMap.mpr ⟨f, hf, Stage.landed?_eq_some.mpr h⟩), rfl⟩

/-- What may come of a unit of a build on caches that were empty: what it gets from them was compiled
before. -/
def deliveryCourse (delivered : List Artifact) (s : State σ) (f : Flight) : Stage.Course where
  answer raw? := ∀ raw, raw? = some raw → s.Covers delivered f.key ∧ ∀ n ∈ Artifact.announced raw, n ≤ raw.length
  compiles := True
  fetched _ := s.Covers delivered f.key
  compiled a := a.key = f.key ∧ a.size < Bytes.range 8
  ending
    | .localHit _ | .remoteHit _ => s.Covers delivered f.key
    | .compiled a => a.key = f.key ∧ a.size < Bytes.range 8
    | .failed _ => True
    | .cancelled => False

/-- The remote has what was delivered to it, which is the compiled artifacts of units with results, up
to the publications that are yet to begin; all that came of units goes back to something compiled. -/
structure Delivering (b : Builder σ) (p : Plan) (held : σ → (CacheKey → Option Bytes) → Prop)
    (delivered : List Artifact) (s : State σ) : Prop where
  token : s.cancelled = false
  remote : s.caches.remote.Has held (Artifact.stock delivered)
  publications : ∀ q ∈ s.publications, q.Sure
  sized : ∀ a ∈ s.made delivered, a.size < Bytes.range 8
  balance : ((delivered ++ s.queued).map some).Perm s.board.compiled
  store : s.caches.store.Sound fun k _ => s.Covers delivered k
  flights : ∀ f ∈ s.flights, f.stage.On (deliveryCourse delivered s f)
  results : ∀ r ∈ s.board.results, r.outcome.isSuccess = true →
    ∃ k, r.key = some k ∧ (p.keys b.environment).find? r.name = some k ∧ s.Covers delivered k
  aborted : ∀ loss failure, s.phase ≠ .aborted loss failure
  succeeds : s.Delivers b p → (∀ r ∈ s.board.results, r.outcome.isSuccess = true) ∧
    ∀ f ∈ s.flights, ∀ message, f.stage ≠ .ended (.failed message)

/-- A step keeps the store sound if the artifacts that it stores are right. -/
theorem Step.sound_store {right : CacheKey → Bytes → Prop} (h : s.caches.store.Sound right) (hs : Step b p s e t)
    (hput : ∀ f ∈ s.flights, ∀ a, f.stage = .adopt a ∧ { f with stage := .ended (.remoteHit a) } ∈ t.flights ∨
      f.stage = .keep a ∧ { f with stage := .ended (.compiled a) } ∈ t.flights → right f.key a.data) :
    t.caches.store.Sound right := by
  cases hs with
  | finish => exact (Store.Shrinks.saveIndex _).sound h
  | wait | skip | send | lose | join | abort | publish | cancel => exact h
  | @work i turn f hf ho =>
    have hi := (List.getElem?_eq_some_iff.mp hf).1
    refine Flight.sound_store h (fun a ha => hput f (List.mem_of_getElem? hf) a ?_) _ _
    rw [State.work, Flight.work]
    refine ha.imp (fun hadopt => ?_) fun hkeep => ?_
    · rw [hadopt]
      exact ⟨rfl, List.mem_set hi _⟩
    · rw [hkeep]
      exact ⟨rfl, List.mem_set hi _⟩
  | @perish i turn f loss failure hf ho hl =>
    -- no unit is lost as its artifact is stored
    refine Flight.sound_store h (fun a ha => ?_) _ _
    simp only [Flight.work] at hl
    rcases ha with hadopt | hkeep
    · simp [hadopt, Flight.store] at hl
    · simp [hkeep, Flight.store] at hl

namespace Delivering

theorem initial {c : Caches σ} (hempty : c.store.Bare) (hnothing : held c.remote.remote fun _ => none) :
    Delivering b p held [] (.initial p c) where
  token := rfl
  remote := ⟨rfl, hnothing⟩
  publications _ hq := absurd hq List.not_mem_nil
  sized _ ha := absurd ha List.not_mem_nil
  balance := .refl _
  store k content a hfile hdecode := (hempty k content a hfile hdecode).elim
  flights _ hf := absurd hf List.not_mem_nil
  results _ hr := absurd hr List.not_mem_nil
  aborted := nofun
  succeeds _ := ⟨fun _ hr => absurd hr List.not_mem_nil, fun _ hf => absurd hf List.not_mem_nil⟩

private theorem steers (hb : b.compiler.Sized) (hread : s.caches.store.Readable)
    (h : Delivering b p held delivered s) (turn : Build.Turn) (f : Flight) :
    f.Steers b turn s.caches.store (Artifact.stock delivered) (deliveryCourse delivered s f) where
  hit a hget := by
    obtain ⟨raw, hfile, hparse⟩ := Store.get_some hget
    exact h.store f.key raw a hfile hparse
  looks := hread.get_ne_crashed f.key
  answers raw hraw := by
    obtain ⟨a, ha, rfl⟩ := Option.map_eq_some_iff.mp hraw
    obtain ⟨hmem, hkey⟩ := Artifact.mem_of_last? ha
    have hmade : a ∈ s.made delivered := List.mem_append_left _ (List.mem_append_left _ hmem)
    exact ⟨⟨a, hmade, hkey⟩, fun n => Artifact.le_of_mem_encode (h.sized a hmade)⟩
  misses _ := trivial
  decodes raw _ hanswer _ := (hanswer raw rfl).1
  garbles _ _ _ _ := trivial
  reads raw hanswer := (hanswer raw rfl).2
  adopts _ h := h
  output data _ hdata := ⟨rfl, hb _ _ data hdata⟩
  fails _ _ := trivial
  keeps _ h := h

private theorem ne_lost (hclient : b.client.Relies held) (hb : b.compiler.Sized) (hread : s.caches.store.Readable)
    (h : Delivering b p held delivered s) {i : Nat} {f : Flight} (hf : s.flights[i]? = some f) (turn : Build.Turn)
    (loss : Loss) (failure : String) : (f.work b s.cancelled turn s.caches).stage ≠ .lost loss failure := by
  have hon := (h.steers hb hread turn f).work hclient h.remote (h.flights f (List.mem_of_getElem? hf))
  rw [h.token]
  exact hon.ne_lost loss failure

/-- A compiled artifact goes from its unit to the queue of publications, from where it is delivered. What
a step adds was about to be stored; what is joined is reported. -/
structure Traffic (b : Builder σ) (s : State σ) (e : Event) (t : State σ) (new joined : List Artifact) : Prop where
  queue : (s.delivery b e ++ t.queued).Perm (s.queued ++ joined)
  landing : (joined ++ t.landed).Perm (s.landed ++ new)
  reported : t.board.compiled = s.board.compiled ++ joined.map some
  stored : ∀ a ∈ new, ∃ f ∈ s.flights, f.stage = .keep a

private theorem Traffic.of_still (hd : s.delivery b e = []) (hq : t.queued = s.queued) (hl : t.landed = s.landed)
    (hc : t.board.compiled = s.board.compiled) : Traffic b s e t [] [] where
  queue := by rw [hd, hq, List.append_nil, List.nil_append]
  landing := by rw [hl, List.append_nil, List.nil_append]
  reported := by rw [hc, List.map_nil, List.append_nil]
  stored _ ha := absurd ha List.not_mem_nil

private theorem landed_eraseIdx {i : Nat} {f : Flight} (hf : s.flights[i]? = some f) :
    s.landed.Perm (f.stage.landed?.toList ++ (s.flights.eraseIdx i).filterMap (·.stage.landed?)) := by
  refine ((perm_eraseIdx hf).filterMap (·.stage.landed?)).trans ?_
  rw [List.filterMap_cons]
  cases f.stage.landed? <;> exact .refl _

private theorem landed_set {i : Nat} {f : Flight} (hf : s.flights[i]? = some f) (stage : Stage) :
    ((s.flights.set i { f with stage }).filterMap (·.stage.landed?)).Perm
      (stage.landed?.toList ++ (s.flights.eraseIdx i).filterMap (·.stage.landed?)) := by
  refine ((perm_set hf { f with stage }).filterMap (·.stage.landed?)).trans ?_
  rw [List.filterMap_cons]
  cases stage.landed? <;> exact .refl _

private theorem traffic_work {i : Nat} {turn : Build.Turn} {f : Flight} (hf : s.flights[i]? = some f)
    (ho : f.stage.isOver = false) : Traffic b s (.work i turn) (s.work b i f turn)
      (f.work b s.cancelled turn s.caches).stage.landed?.toList [] where
  queue := .of_eq (List.append_nil _).symm
  landing := by
    have hbefore := landed_eraseIdx hf
    have hnone : f.stage.landed? = none := by
      cases hs : f.stage with
      | ended =>
        rw [hs] at ho
        cases ho
      | lookup | fetch | await | adopt | compile | keep | lost => rfl
    rw [hnone] at hbefore
    exact (landed_set hf _).trans (.trans List.perm_append_comm (hbefore.symm.append_right _))
  reported := (List.append_nil _).symm
  stored a ha :=
    ⟨f, List.mem_of_getElem? hf, Flight.before_of_work ho (Stage.landed?_eq_some.mp (Option.mem_toList.mp ha))⟩

private theorem traffic_join (hb : b.client.Relies held) (hk : s.Kept p b.environment) {i : Nat} {f : Flight}
    {g : Ending} (hphase : s.phase = .waiting) (hf : s.flights[i]? = some f) (hg : f.stage = .ended g)
    (duration : Duration) : Traffic b s (.join i duration) (s.join b p i f g duration) [] f.stage.landed?.toList where
  queue := by
    have hqueued : ((State.published b g).filter (·.wait.isNone)).map (·.artifact) = f.stage.landed?.toList := by
      rw [hg]
      cases g with
      | compiled a => simp [State.published, hb.enabled, Publication.of, Stage.landed?]
      | localHit | remoteHit | failed | cancelled => rfl
    refine .of_eq ?_
    simp only [State.delivery, State.queued, State.join, List.nil_append, List.filter_append, List.map_append,
      hqueued]
  landing := by
    rw [List.append_nil]
    exact (landed_eraseIdx hf).symm
  reported := by
    have ho := hk.orderly (.inr hphase)
    have hnot := ho.tracks.not_mem_done (List.mem_map_of_mem (List.mem_of_getElem? hf))
    have hsame : ∀ q ∈ s.board.results, (s.board.conclude p f.name g).artifacts.find? q.name
        = s.board.artifacts.find? q.name := fun q hq => by
      have hne : f.name ≠ q.name := fun hname => hnot (hname ▸ List.mem_map_of_mem hq)
      rw [Orderly.artifacts_conclude, if_neg hne]
    refine (Board.compiled_record p _ (Orderly.results_conclude p s.board f.name g) hsame).trans ?_
    rw [Orderly.artifacts_conclude, hg]
    cases g <;> simp [State.resultOf, Ending.outcome, Ending.artifact?, Stage.landed?]
  stored _ ha := absurd ha List.not_mem_nil

private theorem traffic_publish (hb : b.client.Relies held) (h : Delivering b p held delivered s) {i : Nat}
    {q : Publication} (hq : s.publications[i]? = some q) (turn : Client.Turn) :
    Traffic b s (.publish i turn) (s.publish b i q turn) [] [] where
  queue := by
    have hbefore := ((perm_eraseIdx hq).filter (·.wait.isNone)).map (·.artifact)
    rw [List.append_nil]
    refine .trans ?_ hbefore.symm
    simp only [State.delivery, hq, Option.elim_some, State.queued, State.publish, h.token]
    rcases h.publications q (List.mem_of_getElem? hq) with hwait | ⟨ends, hwait⟩
    · obtain ⟨r, ends, hstep, -, hd⟩ := Publication.step_begin hb h.remote hwait turn
      have hafter := ((perm_set hq { q with wait := some (.answer 0 (.ok ()) ends) }).filter
        (·.wait.isNone)).map (·.artifact)
      simp only [hstep, hd, Option.elim_some, List.filter_cons, hwait] at hafter ⊢
      exact (hafter.append_left [q.artifact])
    · obtain ⟨r, hstep, -, hd⟩ := Publication.step_confirmed (b := b) h.remote hwait turn
      simp only [hstep, hd, Option.elim_none, List.filter_cons, hwait]
      exact .refl _
  landing := .of_eq (List.append_nil _).symm
  reported := (List.append_nil _).symm
  stored _ ha := absurd ha List.not_mem_nil

theorem traffic (hclient : b.client.Relies held) (hb : b.compiler.Sized) (hread : s.caches.store.Readable)
    (hk : s.Kept p b.environment) (h : Delivering b p held delivered s) (he : e ≠ .cancel) (hs : Step b p s e t) :
    ∃ new joined, Traffic b s e t new joined := by
  cases hs with
  | finish => exact ⟨[], [], .of_still rfl rfl rfl (Board.compiled_close p s.board)⟩
  | wait | lose => exact ⟨[], [], .of_still rfl rfl rfl rfl⟩
  | @skip n cause =>
    have hresults : (s.board.take n).results = s.board.results := rfl
    refine ⟨[], [], .of_still rfl rfl rfl ?_⟩
    exact (Board.compiled_record p (.skipped n cause) hresults fun _ _ => rfl).trans (List.append_nil _)
  | send =>
    refine ⟨[], [], .of_still rfl rfl ?_ rfl⟩
    rw [State.landed, State.send, List.filterMap_append]
    exact List.append_nil _
  | work hf ho => exact ⟨_, _, traffic_work hf ho⟩
  | perish hf ho hl => exact absurd hl (h.ne_lost hclient hb hread hf _ _ _)
  | join hphase hf hg => exact ⟨_, _, traffic_join hclient hk hphase hf hg _⟩
  | abort hphase hf hl => exact absurd hl ((h.flights _ (List.mem_of_getElem? hf)).ne_lost _ _)
  | publish hq => exact ⟨_, _, h.traffic_publish hclient hq _⟩
  | cancel => exact absurd rfl he

theorem Traffic.made {new joined : List Artifact} (h : Traffic b s e t new joined) :
    (t.made (delivered ++ s.delivery b e)).Perm (s.made delivered ++ new) := by
  simp only [State.made, List.append_assoc]
  refine .append_left delivered ?_
  calc s.delivery b e ++ (t.queued ++ t.landed)
      = (s.delivery b e ++ t.queued) ++ t.landed := (List.append_assoc ..).symm
    List.Perm _ ((s.queued ++ joined) ++ t.landed) := h.queue.append_right _
    _ = s.queued ++ (joined ++ t.landed) := List.append_assoc ..
    List.Perm _ (s.queued ++ (s.landed ++ new)) := h.landing.append_left _

theorem Traffic.covers {new joined : List Artifact} (h : Traffic b s e t new joined) {k : CacheKey}
    (hk : s.Covers delivered k) : t.Covers (delivered ++ s.delivery b e) k := by
  obtain ⟨a, ha, rfl⟩ := hk
  exact ⟨a, h.made.mem_iff.mpr (List.mem_append_left _ ha), rfl⟩

private theorem balance_step {new joined : List Artifact} (h : Delivering b p held delivered s)
    (htraffic : Traffic b s e t new joined) :
    ((delivered ++ s.delivery b e ++ t.queued).map some).Perm t.board.compiled := by
  rw [htraffic.reported, List.append_assoc]
  refine ((htraffic.queue.append_left delivered).map some).trans ?_
  rw [← List.append_assoc, List.map_append]
  exact h.balance.append_right _

private theorem sized_step {new joined : List Artifact} (h : Delivering b p held delivered s)
    (htraffic : Traffic b s e t new joined) :
    ∀ a ∈ t.made (delivered ++ s.delivery b e), a.size < Bytes.range 8 := by
  intro a ha
  rcases List.mem_append.mp (htraffic.made.mem_iff.mp ha) with ha | ha
  · exact h.sized a ha
  · obtain ⟨f, hf, hstage⟩ := htraffic.stored a ha
    have hon := h.flights f hf
    rw [hstage] at hon
    exact hon.2

private theorem course_mono {delivered' : List Artifact} {f : Flight} {stage : Stage}
    (hcovers : s.Covers delivered f.key → t.Covers delivered' f.key)
    (h : stage.On (deliveryCourse delivered s f)) : stage.On (deliveryCourse delivered' t f) := by
  cases stage with
  | lookup | fetch | compile => trivial
  | await w =>
    obtain ⟨answer, ends, rfl, ha⟩ := h
    exact ⟨answer, ends, rfl, fun raw hraw => ⟨hcovers (ha raw hraw).1, (ha raw hraw).2⟩⟩
  | adopt a => exact hcovers h
  | keep a => exact h
  | ended e =>
    cases e with
    | localHit | remoteHit => exact hcovers h
    | compiled | failed | cancelled => exact h
  | lost => exact h

private theorem flights_step (hclient : b.client.Relies held) (hb : b.compiler.Sized)
    (hread : s.caches.store.Readable) (h : Delivering b p held delivered s) {delivered' : List Artifact}
    (hcovers : ∀ k, s.Covers delivered k → t.Covers delivered' k) (hs : Step b p s e t) :
    ∀ f ∈ t.flights, f.stage.On (deliveryCourse delivered' t f) := by
  exact hs.on_course hclient h.token h.remote (fun f _ turn => h.steers hb hread turn f)
    (fun f _ _ => course_mono (hcovers f.key)) h.flights

private theorem store_step (h : Delivering b p held delivered s) {delivered' : List Artifact}
    (hcovers : ∀ k, s.Covers delivered k → t.Covers delivered' k) (hs : Step b p s e t) :
    t.caches.store.Sound fun k _ => t.Covers delivered' k := by
  have hsound : s.caches.store.Sound fun k _ => t.Covers delivered' k :=
    fun k content a hfile hdecode => hcovers k (h.store k content a hfile hdecode)
  refine hs.sound_store hsound fun f hf a hstored => ?_
  have hon := h.flights f hf
  rcases hstored with ⟨hadopt, -⟩ | ⟨hkeep, hstored⟩
  · rw [hadopt] at hon
    exact hcovers f.key hon
  · rw [hkeep] at hon
    exact hon.1 ▸ State.covers_of_flight hstored rfl

private theorem remote_step (hclient : b.client.Relies held) (hb : b.compiler.Sized)
    (hread : s.caches.store.Readable) (h : Delivering b p held delivered s) (he : e ≠ .cancel)
    (hs : Step b p s e t) : t.caches.remote.Has held (Artifact.stock (delivered ++ s.delivery b e)) ∧
      ∀ q ∈ t.publications, q.Sure := by
  have hsame : s.caches.remote.Has held (Artifact.stock (delivered ++ [])) := by
    rw [List.append_nil]
    exact h.remote
  cases hs with
  | finish | wait | skip | send | lose | abort => exact ⟨hsame, h.publications⟩
  | work hf ho =>
    refine ⟨?_, h.publications⟩
    simp only [State.work, h.token]
    exact Flight.has_work hclient hsame (h.flights _ (List.mem_of_getElem? hf))
  | perish hf ho hl => exact absurd hl (h.ne_lost hclient hb hread hf _ _ _)
  | @join i duration f g hphase hf hg =>
    refine ⟨hsame, fun q hq => ?_⟩
    rcases List.mem_append.mp hq with hq | hq
    · exact h.publications q hq
    · cases g with
      | compiled a =>
        simp only [State.published, hclient.enabled, if_true, List.mem_singleton] at hq
        rw [hq]
        exact .inl rfl
      | localHit | remoteHit | failed | cancelled => cases hq
  | @publish i turn q hq =>
    simp only [State.delivery, hq, Option.elim_some, State.publish, h.token]
    rcases h.publications q (List.mem_of_getElem? hq) with hwait | ⟨ends, hwait⟩
    · obtain ⟨r, ends, hstep, hhas, hd⟩ := Publication.step_begin hclient h.remote hwait turn
      rw [hstep, hd, Artifact.stock_append_singleton]
      refine ⟨hhas, fun q' hq' => ?_⟩
      rcases List.mem_or_eq_of_mem_set hq' with hq' | rfl
      · exact h.publications q' hq'
      · exact .inr ⟨ends, rfl⟩
    · obtain ⟨r, hstep, hhas, hd⟩ := Publication.step_confirmed (b := b) h.remote hwait turn
      rw [hstep, hd, List.append_nil]
      exact ⟨hhas, fun q' hq' => h.publications q' (List.mem_of_mem_eraseIdx hq')⟩
  | cancel => exact absurd rfl he

private theorem results_step (hk : s.Kept p b.environment) (h : Delivering b p held delivered s)
    {delivered' : List Artifact} (hcovers : ∀ k, s.Covers delivered k → t.Covers delivered' k)
    (hs : Step b p s e t) : ∀ r ∈ t.board.results, r.outcome.isSuccess = true →
      ∃ k, r.key = some k ∧ (p.keys b.environment).find? r.name = some k ∧ t.Covers delivered' k := by
  intro r hr hsuccess
  rcases hs.results_new hr with hr | ⟨-, -, -, -, n, rfl⟩ | ⟨-, n, cause, -, rfl⟩ |
    ⟨i, duration, f, g, hf, hg, -, rfl⟩
  · obtain ⟨k, hkey, hplan, hcovered⟩ := h.results r hr hsuccess
    exact ⟨k, hkey, hplan, hcovers k hcovered⟩
  · cases hsuccess
  · cases hsuccess
  · have hmem := List.mem_of_getElem? hf
    have hon := h.flights f hmem
    rw [hg] at hon
    refine ⟨f.key, rfl, (hk.sent hmem).key, hcovers f.key ?_⟩
    cases g with
    | localHit | remoteHit => exact hon
    | compiled a => exact hon.1 ▸ State.covers_of_flight hmem hg
    | failed | cancelled => cases hsuccess

private theorem delivers_of_step (hs : Step b p s e t) (h : t.Delivers b p) : s.Delivers b p := by
  intro n dependencies source hmem
  refine h n dependencies source ?_
  rcases hs.compilations with hsame | ⟨-, -, f, -, -, -, hmore⟩
  · rwa [hsame]
  · rw [hmore]
    exact List.mem_append_left _ hmem

private theorem ne_failed_step (hk : s.Kept p b.environment) (h : Delivering b p held delivered s)
    (hs : Step b p s e t) (ht : t.Delivers b p) : ∀ f ∈ t.flights, ∀ message, f.stage ≠ .ended (.failed message) := by
  have hold := (h.succeeds (delivers_of_step hs ht)).2
  cases hs with
  | finish | wait | skip | lose | publish | cancel => exact hold
  | send =>
    intro f hf message
    rcases List.mem_append.mp hf with hf | hf
    · exact hold f hf message
    · rw [List.mem_singleton.mp hf]
      nofun
  | @work i turn f hf ho =>
    intro g hg message hfailed
    rcases List.mem_or_eq_of_mem_set hg with hg | rfl
    · exact hold g hg message hfailed
    · obtain ⟨hstage, hnone⟩ := Flight.before_of_work ho hfailed
      obtain ⟨data, hdata⟩ : ∃ data, b.compiler f.source f.dependencies = .output data := by
        refine ht f.name f.dependencies f.source ?_ (hk.sent (List.mem_of_getElem? hf)).source
        simp [State.work, State.compilation, hstage, Stage.isCompile]
      exact hnone data hdata
  | join => exact fun f hf => hold f (List.mem_of_mem_eraseIdx hf)
  | perish | abort => exact fun f hf => absurd hf List.not_mem_nil

private theorem succeeds_step (hp : p.Valid) (hk : s.Kept p b.environment) (h : Delivering b p held delivered s)
    (hs : Step b p s e t) (ht : t.Delivers b p) : ∀ r ∈ t.board.results, r.outcome.isSuccess = true := by
  obtain ⟨hresults, hflights⟩ := h.succeeds (delivers_of_step hs ht)
  intro r hr
  rcases hs.results_new hr with hr | ⟨hphase, hf, hstuck, rfl, -⟩ | ⟨hphase, n, cause, hcause, rfl⟩ |
    ⟨i, duration, f, g, hf, hg, -, rfl⟩
  · exact hresults r hr
  · rw [State.finish, hk.close_eq hp h.token hphase hf hstuck] at hr
    exact hresults r hr
  · obtain ⟨r, hr, hbad, -⟩ := hk.exists_bad hphase hcause
    have hsuccess := hresults r hr
    simp only [UnitResult.isBad, Bool.or_eq_true, decide_eq_true_eq] at hbad
    rcases hbad with hbad | hbad <;>
    · rw [hbad] at hsuccess
      cases hsuccess
  · have hmem := List.mem_of_getElem? hf
    have hon := h.flights f hmem
    rw [hg] at hon
    cases g with
    | localHit | remoteHit | compiled => rfl
    | failed message => exact absurd hg (hflights f hmem message)
    | cancelled => exact hon.elim

theorem step (hclient : b.client.Relies held) (hb : b.compiler.Sized) (hp : p.Valid)
    (hread : s.caches.store.Readable) (he : e ≠ .cancel) (hk : s.Kept p b.environment)
    (h : Delivering b p held delivered s) (hs : Step b p s e t) :
    Delivering b p held (delivered ++ s.delivery b e) t := by
  obtain ⟨new, joined, htraffic⟩ := h.traffic hclient hb hread hk he hs
  have hcovers : ∀ k, s.Covers delivered k → t.Covers (delivered ++ s.delivery b e) k := fun _ => htraffic.covers
  obtain ⟨hremote, hpublications⟩ := h.remote_step hclient hb hread he hs
  exact {
    token := (hs.cancelled_eq he).trans h.token
    remote := hremote
    publications := hpublications
    sized := h.sized_step htraffic
    balance := h.balance_step htraffic
    store := h.store_step hcovers hs
    flights := h.flights_step hclient hb hread hcovers hs
    results := h.results_step hk hcovers hs
    aborted := hs.ne_aborted hclient h.token h.remote (fun f _ turn => h.steers hb hread turn f) h.flights h.aborted
    succeeds := fun ht => ⟨h.succeeds_step hp hk hs ht, h.ne_failed_step hk hs ht⟩ }

end Delivering

/-- What is delivered in the course of a build whose caches are empty at first. -/
theorem State.delivering {c : Caches σ} (hclient : b.client.Relies held) (hb : b.compiler.Sized) (hp : p.Valid)
    (hempty : c.store.Bare) (hreadable : c.store.Readable) (hnothing : held c.remote.remote fun _ => none)
    (h : (State.initial p c).steps? b p es = some s) (he : .cancel ∉ es) :
    Delivering b p held ((State.initial p c).deliveries b p es) s := by
  refine State.history (I := fun es s => .cancel ∉ es →
    Delivering b p held ((State.initial p c).deliveries b p es) s) (fun _ => .initial hempty hnothing)
    (fun es u e v hu hi hv hnot => ?_) h he
  rw [List.mem_append, List.mem_singleton] at hnot
  obtain ⟨hbefore, hlast⟩ := not_or.mp hnot
  have hr : Run b p Caches.SameStore (.initial p c) es u := .of_steps? hu
  rw [State.deliveries_append_singleton hu]
  exact (hi hbefore).step hclient hb hp (hr.readable hb hreadable) (fun hcancel => hlast hcancel.symm)
    (hr.kept hp) (step_of_step? hv)

end Build
end BuildCache
