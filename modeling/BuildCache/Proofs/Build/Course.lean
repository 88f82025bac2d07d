import BuildCache.Proofs.Build.Sound
import BuildCache.Proofs.Build.Step
import BuildCache.Proofs.Remote.Reliable

/-! # Work and publications on a reliable remote: every call is answered at its first attempt -/
namespace BuildCache

variable {σ : Type}

/-- What may come of a unit: of its fetch, whether it is compiled, the artifacts to be stored, the
endings. -/
structure Stage.Course where
  answer : Option Bytes → Prop
  compiles : Prop
  fetched : Artifact → Prop
  compiled : Artifact → Prop
  ending : Ending → Prop

/-- A stage is on a course, and no attempt failed on the way to it. -/
def Stage.On (l : Course) : Stage → Prop
  | lookup | fetch => True
  | await w => ∃ answer ends, w = .answer 0 (.ok answer) ends ∧ l.answer answer
  | adopt a => l.fetched a
  | compile => l.compiles
  | keep a => l.compiled a
  | ended e => l.ending e
  | lost .. => False

theorem Stage.On.ne_lost {l : Course} {stage : Stage} (h : stage.On l) (loss : Loss) (failure : String) :
    stage ≠ .lost loss failure := by
  rintro rfl
  exact h

namespace Flight

/-- What leads to what as a unit is worked on, with a remote that has these bytes for each key. -/
structure Steers (b : Builder σ) (turn : Build.Turn) (store : Store) (stock : CacheKey → Option Bytes)
    (f : Flight) (l : Stage.Course) : Prop where
  hit : ∀ a, (store.get f.key).2 = .ok (some a) → l.ending (.localHit a)
  looks : ∀ crash, (store.get f.key).2 ≠ .crashed crash
  answers : l.answer (stock f.key)
  misses : l.answer none → l.compiles
  decodes : ∀ raw a, l.answer (some raw) → Artifact.parse f.key raw = .ok a → l.fetched a
  garbles : ∀ raw kind, l.answer (some raw) → Artifact.parse f.key raw = .error kind → l.compiles
  reads : ∀ raw, l.answer (some raw) → ∀ n ∈ Artifact.announced raw, n ≤ raw.length
  adopts : ∀ a, l.fetched a → l.ending (.remoteHit a)
  output : ∀ data, l.compiles → b.compiler f.source f.dependencies = .output data →
    l.compiled ⟨f.key, turn.now.toTimestamp, data⟩
  fails : ∀ message, l.compiles → l.ending (.failed message)
  keeps : ∀ a, l.compiled a → l.ending (.compiled a)

variable {b : Builder σ} {turn : Build.Turn} {c : Caches σ} {f : Flight} {l : Stage.Course}
  {held : σ → (CacheKey → Option Bytes) → Prop} {stock : CacheKey → Option Bytes}

theorem work_fetch (hb : b.client.Relies held) (hc : c.remote.Has held stock) (hs : f.stage = .fetch)
    (turn : Build.Turn) : ∃ remote ends, held remote stock ∧ f.work b false turn c
      = ⟨{ c with remote := { c.remote with remote } }, .await (.answer 0 (.ok (stock f.key)) ends)⟩ := by
  obtain ⟨remote, ends, hstart, hheld⟩ := hb.startFetch hc f.key turn.toTurn
  refine ⟨remote, ends, hheld, ?_⟩
  simp only [work, hs, fetch, hstart, fetched]

theorem work_await {answer : Option Bytes} {ends : Nat} (hs : f.stage = .await (.answer 0 (.ok answer) ends)) :
    f.work b false turn c = ⟨{ c with remote := (Client.noteFetch c.remote (.ok answer)).1 },
      f.fetched c.store.process.memory turn.failure (.over (.ok answer))⟩ := by
  simp only [work, hs, await, Client.resumeFetch_ok]

theorem Steers.fetched (h : Steers b turn c.store stock f l) {answer : Option Bytes} (ha : l.answer answer)
    (memory : Option Nat) (failure : String) : (f.fetched memory failure (.over (.ok answer))).On l := by
  cases answer with
  | none => exact h.misses ha
  | some raw =>
    simp only [Flight.fetched]
    rw [Artifact.decode_eq_parse (h.reads raw ha)]
    cases hparse : Artifact.parse f.key raw with
    | ok a => exact h.decodes raw a ha hparse
    | error kind => exact h.garbles raw kind ha hparse

theorem Steers.work (h : Steers b turn c.store stock f l) (hb : b.client.Relies held)
    (hc : c.remote.Has held stock) (hon : f.stage.On l) :
    (f.work b false turn c).stage.On l := by
  cases hs : f.stage with
  | lookup =>
    simp only [Flight.work, hs, lookup]
    split
    · next store a hget => exact h.hit a (congrArg Prod.snd hget)
    · next store hget => exact absurd (congrArg Prod.snd hget) (h.looks .aborted)
    · trivial
  | fetch =>
    obtain ⟨remote, ends, -, hwork⟩ := work_fetch hb hc hs turn
    rw [hwork]
    exact ⟨stock f.key, ends, rfl, h.answers⟩
  | await w =>
    rw [hs] at hon
    obtain ⟨answer, ends, rfl, ha⟩ := hon
    rw [work_await hs]
    exact h.fetched ha _ _
  | adopt a =>
    rw [hs] at hon
    simp only [Flight.work, hs]
    exact h.adopts a hon
  | compile =>
    rw [hs] at hon
    simp only [Flight.work, hs, Flight.compile]
    split
    · next data hdata => exact h.output data hon hdata
    · exact h.fails _ hon
    · exact h.fails _ hon
  | keep a =>
    rw [hs] at hon
    simp only [Flight.work, hs]
    exact h.keeps a hon
  | ended | lost =>
    rw [hs] at hon
    simpa only [Flight.work, hs] using hon

theorem has_work (hb : b.client.Relies held) (hc : c.remote.Has held stock) (hon : f.stage.On l) :
    (f.work b false turn c).caches.remote.Has held stock := by
  cases hs : f.stage with
  | lookup =>
    simp only [work, hs, lookup]
    split <;> exact hc
  | fetch =>
    obtain ⟨remote, ends, hheld, hwork⟩ := work_fetch hb hc hs turn
    rw [hwork]
    exact ⟨hc.trusted, hheld⟩
  | await w =>
    rw [hs] at hon
    obtain ⟨answer, ends, rfl, -⟩ := hon
    rw [work_await hs]
    exact hc.noteFetch answer
  | compile =>
    simp only [work, hs, compile]
    split <;> exact hc
  | adopt | keep | ended | lost =>
    simp only [work, hs]
    exact hc

end Flight

/-- A step keeps all units on courses that steer them, and that may widen in the step. -/
theorem Build.Step.on_course {b : Builder σ} {p : Plan} {s t : Build.State σ} {e : Build.Event}
    {held : σ → (CacheKey → Option Bytes) → Prop} {stock : CacheKey → Option Bytes}
    {course course' : Flight → Stage.Course} (hs : Build.Step b p s e t) (hclient : b.client.Relies held)
    (htoken : s.cancelled = false) (hremote : s.caches.remote.Has held stock)
    (hsteers : ∀ f ∈ s.flights, ∀ turn, f.Steers b turn s.caches.store stock (course f))
    (hmono : ∀ f (stage stage' : Stage), stage.On (course f) → stage.On (course' { f with stage := stage' }))
    (h : ∀ f ∈ s.flights, f.stage.On (course f)) : ∀ f ∈ t.flights, f.stage.On (course' f) := by
  refine hs.flights (fun f hf => hmono f _ f.stage (h f hf)) (fun _ _ _ _ _ _ => trivial) fun f hf turn _ => ?_
  have hwork := (hsteers f hf turn).work hclient hremote (h f hf)
  rw [htoken]
  exact hmono f _ _ hwork

/-- While all units are on courses that steer them, a build is not given up. -/
theorem Build.Step.ne_aborted {b : Builder σ} {p : Plan} {s t : Build.State σ} {e : Build.Event}
    {held : σ → (CacheKey → Option Bytes) → Prop} {stock : CacheKey → Option Bytes}
    {course : Flight → Stage.Course} (hs : Build.Step b p s e t) (hclient : b.client.Relies held)
    (htoken : s.cancelled = false) (hremote : s.caches.remote.Has held stock)
    (hsteers : ∀ f ∈ s.flights, ∀ turn, f.Steers b turn s.caches.store stock (course f))
    (h : ∀ f ∈ s.flights, f.stage.On (course f)) (hphase : ∀ loss failure, s.phase ≠ .aborted loss failure)
    (loss : Loss) (failure : String) : t.phase ≠ .aborted loss failure := by
  intro habort
  rcases hs.aborted_cases habort with hold | ⟨f, hf, hl | ⟨-, turn, hl⟩⟩
  · exact hphase loss failure hold
  · exact (h f hf).ne_lost loss failure hl
  · rw [htoken] at hl
    exact ((hsteers f hf turn).work hclient hremote (h f hf)).ne_lost loss failure hl

namespace Publication

def delivery (b : Builder σ) (cancelled : Bool) (turn : Client.Turn) (q : Publication) (s : Client.State σ) :
    List Artifact :=
  match q.wait with
  | none => if b.client.enabled && !s.degraded && !(cancelled && turn.tokenFirst) then [q.artifact] else []
  | some (.answer ..) => []
  | some (.delay ..) => if cancelled && turn.tokenFirst then [] else [q.artifact]

theorem remote_step (b : Builder σ) (cancelled : Bool) (turn : Client.Turn) (q : Publication) (s : Client.State σ) :
    (q.step b cancelled turn s).1.remote = (q.delivery b cancelled turn s).foldl
      (fun remote a => (b.client.backend.publish a.key a.encode remote).1) s.remote := by
  have hstep : (q.step b cancelled turn s).1 = (q.call b cancelled turn s).1 := by
    simp only [step]
    split <;> next hcall => rw [hcall]
  rw [hstep, call, delivery]
  rcases q.wait with _ | ⟨failed, result, ends⟩ | ⟨failed, ends⟩
  · simp only [Client.startPublish, Client.start]
    cases b.client.enabled <;> cases s.degraded <;> cases cancelled && turn.tokenFirst <;>
      simp [Client.begin_remote, Client.skipped]
  · simp only [Client.remote_resumePublish, Client.goOn, Client.resume]
    cases cancelled && turn.tokenFirst <;> rfl
  · simp only [Client.remote_resumePublish, Client.goOn, Client.resume]
    cases cancelled && turn.tokenFirst <;> simp [Client.begin_remote]

/-- A publication is yet to begin, or waits for the confirmation of its first attempt. -/
def Sure (q : Publication) : Prop := q.wait = none ∨ ∃ ends, q.wait = some (.answer 0 (.ok ()) ends)

variable {b : Builder σ} {held : σ → (CacheKey → Option Bytes) → Prop} {s : Client.State σ}
  {stock : CacheKey → Option Bytes} {q : Publication}

theorem step_begin (hb : b.client.Relies held) (hs : s.Has held stock) (hq : q.wait = none) (turn : Client.Turn) :
    ∃ t ends, q.step b false turn s = (t, some { q with wait := some (.answer 0 (.ok ()) ends) }) ∧
      t.Has held (Function.update stock q.artifact.key (some q.artifact.encode)) ∧
      q.delivery b false turn s = [q.artifact] := by
  obtain ⟨remote, ends, hstart, hheld⟩ := hb.startPublish hs q.artifact.key q.artifact.encode turn
  refine ⟨{ s with remote }, ends, ?_, ⟨hs.trusted, hheld⟩, ?_⟩
  · simp only [step, call, hq, hstart]
  · simp [delivery, hq, hb.enabled, hs.trusted]

theorem step_confirmed {ends : Nat} (hs : s.Has held stock) (hq : q.wait = some (.answer 0 (.ok ()) ends))
    (turn : Client.Turn) :
    ∃ t, q.step b false turn s = (t, none) ∧ t.Has held stock ∧ q.delivery b false turn s = [] := by
  refine ⟨Client.notePublish s (.ok ()), ?_, hs.notePublish, ?_⟩
  · simp only [step, call, hq, Client.resumePublish_ok]
  · simp only [delivery, hq]

end Publication

namespace Artifact

def last? (delivered : List Artifact) (k : CacheKey) : Option Artifact := delivered.reverse.find? (·.key = k)

/-- What a remote has for a key, to which these artifacts were delivered one after another. -/
def stock (delivered : List Artifact) (k : CacheKey) : Option Bytes := (last? delivered k).map (·.encode)

theorem mem_of_last? {delivered : List Artifact} {k : CacheKey} {a : Artifact} (h : last? delivered k = some a) :
    a ∈ delivered ∧ a.key = k :=
  ⟨List.mem_reverse.mp (List.mem_of_find?_eq_some h), by simpa using List.find?_some h⟩

theorem exists_last? {delivered : List Artifact} {a : Artifact} (h : a ∈ delivered) :
    ∃ last, last? delivered a.key = some last := by
  refine Option.isSome_iff_exists.mp (List.find?_isSome.mpr ⟨a, List.mem_reverse.mpr h, ?_⟩)
  exact decide_eq_true rfl

theorem stock_append_singleton (delivered : List Artifact) (a : Artifact) :
    stock (delivered ++ [a]) = Function.update (stock delivered) a.key (some a.encode) := by
  funext k
  rw [Function.update_apply]
  by_cases hk : k = a.key
  · simp [stock, last?, hk]
  · have hne : a.key ≠ k := fun h => hk h.symm
    simp [stock, last?, hk, hne]

end Artifact

namespace Build.State

/-- What an event hands to the backend to be published. -/
def delivery (b : Builder σ) (s : State σ) : Event → List Artifact
  | .publish i turn => (s.publications[i]?).elim [] (·.delivery b s.cancelled turn s.caches.remote)
  | _ => []

/-- What some events hand to the backend, one after another. -/
def deliveries (b : Builder σ) (p : Plan) : State σ → List Event → List Artifact
  | _, [] => []
  | s, e :: es => s.delivery b e ++ (s.step? b p e).elim [] (deliveries b p · es)

variable {b : Builder σ} {p : Plan} {s t : State σ} {e : Event} {es : List Event}

theorem deliveries_append_singleton (h : s.steps? b p es = some t) :
    s.deliveries b p (es ++ [e]) = s.deliveries b p es ++ t.delivery b e := by
  induction es generalizing s with
  | nil =>
    cases h
    cases hs : t.step? b p e <;> simp [deliveries, hs]
  | cons first es ih =>
    simp only [steps?, bind, Option.bind_eq_some_iff] at h
    obtain ⟨u, hu, h⟩ := h
    simp only [List.cons_append, deliveries, hu, Option.elim_some, ih h, List.append_assoc]

/-- What holds at first, and is kept as an event is added, holds after all events. -/
theorem history {I : List Event → State σ → Prop} (h0 : I [] s)
    (hstep : ∀ es u e v, s.steps? b p es = some u → I es u → u.step? b p e = some v → I (es ++ [e]) v)
    (h : s.steps? b p es = some t) : I es t := by
  induction es using List.reverseRecOn generalizing t with
  | nil =>
    cases h
    exact h0
  | append_singleton es e ih =>
    rw [steps?_append] at h
    obtain ⟨u, hu, h⟩ := Option.bind_eq_some_iff.mp h
    refine hstep es u e t hu (ih hu) ?_
    simpa [steps?] using h

end Build.State
end BuildCache
