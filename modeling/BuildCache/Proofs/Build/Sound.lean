import BuildCache.Build.Publication
import BuildCache.Proofs.Build.Flight
import BuildCache.Proofs.Store.Sound

/-! # Sound caches: what both of them hold for a key is right, and work keeps it so -/
namespace BuildCache

variable {σ : Type}

/-- In the states that are called honest, a remote has nothing for a key that decodes and is not
right for it. It remains honest if it is asked, and if it is given what is right. -/
structure Backend.Honest (b : Backend σ) (right : CacheKey → Bytes → Prop)
    (honest : σ → Prop) : Prop where
  answers : ∀ k remote raw a, honest remote → (b.fetch k remote).2.result = .ok (some raw) →
    Artifact.parse k raw = .ok a → right k a.data
  fetches : ∀ k remote, honest remote → honest (b.fetch k remote).1
  publishes : ∀ (a : Artifact) remote, honest remote → right a.key a.data →
    honest (b.publish a.key a.encode remote).1

/-- Neither cache holds anything for a key that decodes and is not right for it. -/
structure Caches.Sound (right : CacheKey → Bytes → Prop) (honest : σ → Prop) (c : Caches σ) : Prop where
  store : c.store.Sound right
  remote : honest c.remote.remote

theorem Backend.Honest.of_silent {b : Backend σ} {right : CacheKey → Bytes → Prop}
    (h : ∀ k remote raw, (b.fetch k remote).2.result ≠ .ok (some raw)) :
    b.Honest right fun _ => True where
  answers k remote raw _ _ hr := absurd hr (h k remote raw)
  fetches _ _ _ := trivial
  publishes _ _ _ _ := trivial

variable {b : Builder σ} {right : CacheKey → Bytes → Prop} {honest : σ → Prop} {c : Caches σ}

theorem Flight.sound_store (hc : c.store.Sound right) {f : Flight}
    (h : ∀ a, f.stage = .adopt a ∨ f.stage = .keep a → right f.key a.data)
    (cancelled : Bool) (turn : Build.Turn) :
    (f.work b cancelled turn c).caches.store.Sound right := by
  simp only [work]
  cases hs : f.stage with
  | lookup =>
    have hget := hc.get f.key
    simp only [Flight.lookup]
    split <;>
    · next hf =>
      rw [hf] at hget
      exact hget
  | adopt a => exact hc.put fun _ => h a (.inl hs)
  | keep a => exact hc.put fun _ => h a (.inr hs)
  | compile =>
    simp only [Flight.compile]
    split <;> exact hc
  | fetch | await | ended | lost => exact hc

theorem Flight.sound_work (hb : b.client.backend.Honest right honest)
    (hc : c.Sound right honest) {f : Flight}
    (h : ∀ a, f.stage = .adopt a ∨ f.stage = .keep a → right f.key a.data)
    (cancelled : Bool) (turn : Build.Turn) : (f.work b cancelled turn c).caches.Sound right honest := by
  refine ⟨sound_store hc.store h cancelled turn, ?_⟩
  have hremote : ∀ remote, remote = c.remote.remote ∨
    remote = (b.client.backend.fetch f.key c.remote.remote).1 →
      honest remote := fun remote hr => by
    rcases hr with rfl | rfl
    · exact hc.remote
    · exact hb.fetches f.key _ hc.remote
  simp only [work]
  cases hs : f.stage with
  | lookup =>
    simp only [Flight.lookup]
    split <;> exact hc.remote
  | fetch => exact hremote _ (b.client.startFetch_remote cancelled f.key turn.toTurn c.remote)
  | await w => exact hremote _ (b.client.resumeFetch_remote cancelled f.key w turn.toTurn c.remote)
  | compile =>
    simp only [Flight.compile]
    split <;> exact hc.remote
  | adopt | keep | ended | lost => exact hc.remote

namespace Publication

theorem honest_step (hb : b.client.backend.Honest right honest) {s : Client.State σ}
    (hs : honest s.remote)
    {q : Publication} (hq : right q.artifact.key q.artifact.data) (cancelled : Bool) (turn : Client.Turn) :
    honest (q.step b cancelled turn s).1.remote := by
  have hcall : honest (q.call b cancelled turn s).1.remote := by
    have h : (q.call b cancelled turn s).1.remote = s.remote ∨ (q.call b cancelled turn s).1.remote
        = (b.client.backend.publish q.artifact.key q.artifact.encode s.remote).1 := by
      simp only [call]
      split
      · exact b.client.startPublish_remote ..
      · exact b.client.resumePublish_remote ..
    rcases h with h | h
    · rwa [h]
    · rw [h]
      exact hb.publishes _ _ hs hq
  simp only [step]
  split <;>
  · next hstep =>
    rw [hstep] at hcall
    exact hcall

theorem artifact_step {s : Client.State σ} {q q' : Publication} {cancelled : Bool} {turn : Client.Turn}
    (h : (q.step b cancelled turn s).2 = some q') : q'.artifact = q.artifact := by
  simp only [step] at h
  split at h
  · cases h
    rfl
  · cases h

end Publication
end BuildCache
