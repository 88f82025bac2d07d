import Mathlib.Logic.Function.Basic
import BuildCache.Proofs.KeyMap
import BuildCache.Proofs.Remote.Wait
import BuildCache.Remote.Memory

/-! # Reliable remotes: they answer in time, and return for a key what was published last under it -/
namespace BuildCache

variable {σ : Type}

/-- A remote answers every call in time and without an error. `held` tells of its states which bytes they have
for each key: no fetch changes them, and a publication sets those of its key. -/
structure Backend.Reliable (b : Backend σ) (inTime : Duration → Prop) (held : σ → (CacheKey → Option Bytes) → Prop) :
    Prop where
  fetch : ∀ k remote stock, held remote stock → held (b.fetch k remote).1 stock ∧
    ∃ latency, inTime latency ∧ (b.fetch k remote).2 = ⟨.ok (stock k), some latency⟩
  publish : ∀ k data remote stock, held remote stock →
    held (b.publish k data remote).1 (Function.update stock k (some data)) ∧
    ∃ latency, inTime latency ∧ (b.publish k data remote).2 = ⟨.ok (), some latency⟩

theorem Backend.reliable_memory {inTime : Duration → Prop} (h : inTime Duration.nanosPerMilli) :
    memory.Reliable inTime fun m stock => ∀ k, m.find? k = stock k where
  fetch k m stock hm := ⟨hm, Duration.nanosPerMilli, h, by rw [← hm k]; rfl⟩
  publish k data m stock hm := by
    refine ⟨fun l => ?_, Duration.nanosPerMilli, h, rfl⟩
    rw [Function.update_apply, ← hm l]
    simp [memory, eq_comm]

namespace Client

variable {α : Type} {c : Client σ}

/-- Whenever a call begins, an answer comes before the timeout ends. -/
def InTime (c : Client σ) (latency : Duration) : Prop := ∀ now, now + latency ≤ c.timer.ends now c.timeout

theorem inTime_of_le {latency : Duration} (h : latency ≤ min c.timeout c.timer.span) : c.InTime latency := fun now =>
  (Nat.add_le_add_left h now).trans (c.timer.not_early now c.timeout)

theorem begin_of_reply {call : σ → σ × Reply α} {remote : σ} {result : Except RemoteError α}
    {latency : Duration} (hreply : (call remote).2 = ⟨result, some latency⟩) (hl : c.InTime latency)
    (failed now : Nat) : ∃ ends, c.begin call failed now remote
      = ((call remote).1, .waiting (.answer failed result ends)) := by
  simp only [begin, ask, hreply, Option.map_some, Option.filter_some, hl now, decide_true, if_true]
  exact ⟨_, rfl⟩

/-- The remote was not given up, and has these bytes for each key. -/
structure State.Has (held : σ → (CacheKey → Option Bytes) → Prop) (s : State σ) (stock : CacheKey → Option Bytes) :
    Prop where
  trusted : s.degraded = false
  held : held s.remote stock

/-- A client uses a remote that is reliable within its timeout. -/
structure Relies (c : Client σ) (held : σ → (CacheKey → Option Bytes) → Prop) : Prop where
  enabled : c.enabled = true
  reliable : c.backend.Reliable c.InTime held

variable {held : σ → (CacheKey → Option Bytes) → Prop} {s : State σ} {stock : CacheKey → Option Bytes}

namespace Relies

theorem startFetch (h : c.Relies held) (hs : s.Has held stock) (k : CacheKey) (turn : Turn) :
    ∃ remote ends, c.startFetch false k turn s
      = ({ s with remote }, .waiting (.answer 0 (.ok (stock k)) ends)) ∧ held remote stock := by
  obtain ⟨hheld, latency, hl, hreply⟩ := h.reliable.fetch k s.remote stock hs.held
  obtain ⟨ends, hbegin⟩ := begin_of_reply hreply hl 0 turn.moment
  refine ⟨(c.backend.fetch k s.remote).1, ends, ?_, hheld⟩
  simp [Client.startFetch, h.enabled, hs.trusted, start, hbegin]

/-- A publication begins with the wait for its confirmation, and the remote has its bytes from then on. -/
theorem startPublish (h : c.Relies held) (hs : s.Has held stock) (k : CacheKey) (data : Bytes) (turn : Turn) :
    ∃ remote ends, c.startPublish false k data turn s
      = ({ s with remote }, .waiting (.answer 0 (.ok ()) ends)) ∧
      held remote (Function.update stock k (some data)) := by
  obtain ⟨hheld, latency, hl, hreply⟩ := h.reliable.publish k data s.remote stock hs.held
  obtain ⟨ends, hbegin⟩ := begin_of_reply hreply hl 0 turn.moment
  refine ⟨(c.backend.publish k data s.remote).1, ends, ?_, hheld⟩
  simp [Client.startPublish, h.enabled, hs.trusted, start, hbegin]

end Relies

theorem resumeFetch_ok (failed : Nat) (answer : Option Bytes) (ends : Nat) (k : CacheKey) (turn : Turn) :
    c.resumeFetch false k (.answer failed (.ok answer) ends) turn s
      = ((noteFetch s (.ok answer)).1, .over (.ok answer)) := by
  cases answer <;> rfl

theorem resumePublish_ok (failed ends : Nat) (k : CacheKey) (data : Bytes) (turn : Turn) :
    c.resumePublish false k data (.answer failed (.ok ()) ends) turn s = (notePublish s (.ok ()), .over (.ok ())) :=
  rfl

theorem State.Has.noteFetch (h : s.Has held stock) (answer : Option Bytes) :
    (noteFetch s (.ok answer)).1.Has held stock := by
  cases answer <;> exact ⟨h.trusted, h.held⟩

theorem State.Has.notePublish (h : s.Has held stock) : (notePublish s (.ok ())).Has held stock :=
  ⟨h.trusted, h.held⟩

end Client
end BuildCache
