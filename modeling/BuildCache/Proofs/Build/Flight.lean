import BuildCache.Build.Flight
import BuildCache.Proofs.Remote.Wait
import BuildCache.Proofs.Store.Sound

/-! # Units in flight: what is known of each stage goes over to the next -/
namespace BuildCache

variable {σ : Type}

/-- What the stages of a unit in flight may show: the answers waited for, the artifacts to be
stored, the endings. -/
structure Stage.Limits where
  answer : Except RemoteError (Option Bytes) → Prop
  artifact : Artifact → Prop
  ending : Ending → Prop

/-- A stage is within some limits, and calls of the remote are lost only if they can be. -/
def Stage.Within (c : Client σ) (l : Stage.Limits) : Stage → Prop
  | lookup | fetch | compile => True
  | await w => w.Holds c l.answer
  | adopt a | keep a => l.artifact a
  | ended e => l.ending e
  | lost loss _ => loss = .retry → c.policy.Loses

namespace Flight

/-- What one step of work has to respect so that a unit stays within some limits. -/
structure Respects (b : Builder σ) (cancelled : Bool) (turn : Build.Turn) (c : Caches σ) (f : Flight)
    (l : Stage.Limits) : Prop where
  hit : ∀ a, (c.store.get f.key).2 = .ok (some a) → l.ending (.localHit a)
  answers : l.answer (b.client.backend.fetch f.key c.remote.remote).2.result
  times : l.answer (.error b.client.timedOut)
  decodes : ∀ raw a, l.answer (.ok (some raw)) → Artifact.parse f.key raw = .ok a → l.artifact a
  cancels : cancelled = true ∨ l.answer (.error .cancelled) → l.ending .cancelled
  adopts : ∀ a, l.artifact a → l.ending (.remoteHit a)
  keeps : ∀ a, l.artifact a → l.ending (.compiled a)
  output : ∀ data, b.compiler f.source f.dependencies = .output data → l.artifact ⟨f.key, turn.now.toTimestamp, data⟩
  rejects : ∀ message, b.compiler f.source f.dependencies = .rejected message → l.ending (.failed message)
  crashes : b.compiler f.source f.dependencies = .crashed → 
    l.ending (.failed (Compilation.crashReport turn.failure))

variable {b : Builder σ} {cancelled : Bool} {turn : Build.Turn} {c : Caches σ} {f : Flight}
  {l : Stage.Limits}

theorem Respects.fetched (hr : Respects b cancelled turn c f l) {p : Client.Progress (Option Bytes)}
    (hp : p.Holds b.client l.answer (Client.Fetched l.answer cancelled)) (memory : Option Nat) (failure : String) :
    (f.fetched memory failure p).Within b.client l := by
  cases p with
  | waiting w => exact hp
  | lost => exact fun _ => hp
  | «over» result =>
    rcases result with e | _ | raw
    · obtain ⟨rfl, hc⟩ := hp
      exact hr.cancels hc
    · trivial
    · simp only [Flight.fetched]
      split
      · next a ha => exact hr.decodes raw a hp (Artifact.decode_eq_ok.mp ha)
      · trivial
      · nofun

theorem cancelled_of_fetched {memory : Option Nat} {failure : String} {p : Client.Progress (Option Bytes)}
    {e : Ending} (h : f.fetched memory failure p = .ended e) : e = .cancelled := by
  simp only [Flight.fetched] at h
  split at h
  · cases h
  · split at h <;> cases h
  · cases h
  · cases h
    rfl
  · cases h
  · cases h

theorem Respects.work (hr : Respects b cancelled turn c f l) (h : f.stage.Within b.client l) :
    (f.work b cancelled turn c).stage.Within b.client l := by
  simp only [Flight.work]
  cases hs : f.stage with
  | lookup =>
    simp only [lookup]
    split
    · next store a ha => exact hr.hit a (congrArg Prod.snd ha)
    · nofun
    · trivial
  | fetch =>
    exact hr.fetched (Client.startFetch_holds hr.answers hr.times) _ _
  | await w =>
    rw [hs] at h
    exact hr.fetched (Client.resumeFetch_holds h hr.answers hr.times) _ _
  | adopt a =>
    rw [hs] at h
    exact hr.adopts a h
  | compile =>
    simp only [compile]
    split
    · next data hd => exact hr.output data hd
    · next message hm => exact hr.rejects message hm
    · next hc => exact hr.crashes hc
  | keep a =>
    rw [hs] at h
    exact hr.keeps a h
  | ended e | lost =>
    rw [hs] at h
    simpa only [hs] using h

/-- What the work on a unit breaks down over: a call that is lost, the answer of the remote that it waited for, or
the file in the store that it looks up. -/
inductive Breaks (b : Builder σ) (c : Caches σ) (f : Flight) : Loss → Prop
  | retry (h : b.client.policy.Loses) : Breaks b c f .retry
  | fetched {failed ends : Nat} {raw : Bytes} {crash : Crash}
      (hs : f.stage = .await (.answer failed (.ok (some raw)) ends))
      (h : Artifact.decode c.store.process.memory f.key raw = .crashed crash) : Breaks b c f (.fetched crash raw)
  | found {raw : Bytes} (hs : f.stage = .lookup)
      (hf : c.store.disk.tree.node? (c.store.pathOf f.key) = some (.file raw))
      (h : Artifact.decode c.store.process.memory f.key raw = .crashed .aborted) : Breaks b c f .found

theorem lost_of_fetched {memory : Option Nat} {failure text : String} {p : Client.Progress (Option Bytes)}
    {loss : Loss} (h : f.fetched memory failure p = .lost loss text) : p = .lost ∧ loss = .retry ∨
      ∃ raw crash, p = .over (.ok (some raw)) ∧ Artifact.decode memory f.key raw = .crashed crash ∧
        loss = .fetched crash raw := by
  simp only [Flight.fetched] at h
  split at h
  · cases h
  · next raw =>
    split at h
    · cases h
    · cases h
    · next crash hcrash =>
      cases h
      exact .inr ⟨raw, crash, rfl, hcrash, rfl⟩
  · cases h
  · cases h
  · cases h
  · cases h
    exact .inl ⟨rfl, rfl⟩

theorem breaks_of_work (hr : Respects b cancelled turn c f l) (h : f.stage.Within b.client l)
    (ho : f.stage.isOver = false) {loss : Loss} {text : String}
    (hl : (f.work b cancelled turn c).stage = .lost loss text) : f.Breaks b c loss := by
  have hwithin := hr.work h
  rw [hl] at hwithin
  simp only [Flight.work] at hl
  cases hs : f.stage with
  | lookup =>
    simp only [hs, lookup] at hl
    split at hl
    · cases hl
    · next store hget =>
      cases hl
      obtain ⟨raw, hf, hd⟩ := Store.get_broken (congrArg Prod.snd hget)
      exact .found hs hf hd
    · cases hl
  | fetch =>
    simp only [hs, fetch] at hl
    obtain ⟨hlost, hsome⟩ := Client.startFetch_ne_lost b.client cancelled f.key turn.toTurn c.remote
    rcases lost_of_fetched hl with ⟨hp, rfl⟩ | ⟨raw, crash, hp, -, -⟩
    · exact absurd hp hlost
    · exact absurd hp (hsome raw)
  | await w =>
    simp only [hs, await] at hl
    rcases lost_of_fetched hl with ⟨-, rfl⟩ | ⟨raw, crash, hp, hcrash, rfl⟩
    · exact .retry (hwithin rfl)
    · obtain ⟨failed, ends, rfl⟩ := Client.answer_of_resumeFetch hp
      exact .fetched hs hcrash
  | compile =>
    simp only [hs, compile] at hl
    split at hl <;> cases hl
  | adopt | keep =>
    simp only [hs, store] at hl
    cases hl
  | ended | lost =>
    rw [hs] at ho
    cases ho

end Flight
end BuildCache
