import BuildCache.Proofs.Build.Compile
import BuildCache.Proofs.Store.Reopen

/-! # What builds leave in an undisturbed store: it keeps all that it held, and has what came of each success -/
namespace BuildCache

variable {σ : Type}

/-- All that comes of a compiler has a length in 64 bits. -/
def Compiler.Sized (compile : Compiler) : Prop :=
  ∀ s dependencies data, compile s dependencies = .output data → data.length < Bytes.range 8

/-- A store that nobody else writes to has only files of artifacts that were put into it. -/
theorem Store.Undisturbed.readable {place : Path} {store : Store} (h : store.Undisturbed place) : store.Readable := by
  obtain ⟨m, hm⟩ := h.settled
  intro k content hfile
  rw [hm.mirrors.stowed.files] at hfile
  obtain ⟨a, ha, hcontent⟩ := Option.map_eq_some_iff.mp hfile
  cases hcontent
  exact Artifact.decode_eq_parse
    (fun _ => Artifact.le_of_mem_encode (hm.mirrors.valid (k, a) (KeyMap.mem_of_find? ha)).2) ..

/-- Others leave the local store alone. -/
def Caches.SameStore (c c' : Caches σ) : Prop := c'.store = c.store

namespace Flight

/-- What is to be stored for a unit has its key, and a length in 64 bits. -/
def sizeLimits (f : Flight) : Stage.Limits where
  answer _ := True
  artifact a := a.key = f.key ∧ a.size < Bytes.range 8
  ending _ := True

variable {b : Builder σ} {cancelled : Bool} {turn : Build.Turn} {c : Caches σ} {f : Flight}

theorem respects_sizeLimits (hb : b.compiler.Sized) : Respects b cancelled turn c f f.sizeLimits where
  hit _ _ := trivial
  answers := trivial
  times := trivial
  decodes _ _ _ h := ⟨Artifact.key_of_parse h, Artifact.size_of_parse h⟩
  cancels _ := trivial
  adopts _ _ := trivial
  keeps _ _ := trivial
  output data h := ⟨rfl, hb _ _ data h⟩
  rejects _ _ := trivial
  crashes _ := trivial

theorem caches_lookup (turn : Build.Turn) (c : Caches σ) (f : Flight) :
    (f.lookup turn c).caches = { c with store := (c.store.get f.key).1 } := by
  simp only [lookup]
  split <;> next hget => rw [hget]

theorem stage_lookup {a : Artifact} : (f.lookup turn c).stage = .ended (.localHit a) ↔ c.store.Holds f.key a := by
  simp only [lookup, Store.Holds]
  split
  · next hget => simp [hget]
  · next hget => simp [hget]
  · next hnone _ hget =>
    constructor
    · intro h
      cases h
    · intro h
      rw [hget] at h
      exact absurd h (hnone a)

theorem store_work (h : f.stage.Within b.client f.sizeLimits) :
    (f.work b cancelled turn c).caches.store = c.store ∨
    ∃ op : Store.Op, op.Sized ∧ (∀ k, op.Keeps k) ∧
      (f.work b cancelled turn c).caches.store = (op.onStore c.store).1 := by
  simp only [work]
  cases hs : f.stage with
  | lookup =>
    exact .inr ⟨.get f.key, trivial, fun _ => trivial, congrArg Caches.store (caches_lookup turn c f)⟩
  | fetch | await | ended | lost => exact .inl rfl
  | compile =>
    left
    simp only [compile]
    split <;> rfl
  | adopt a | keep a =>
    rw [hs] at h
    exact .inr ⟨.put f.key a, h.2, fun _ => trivial, rfl⟩

theorem readable_work (hc : c.store.Readable) (h : f.stage.Within b.client f.sizeLimits) :
    (f.work b cancelled turn c).caches.store.Readable := by
  simp only [work]
  cases hs : f.stage with
  | lookup =>
    rw [caches_lookup]
    exact (Store.Shrinks.get c.store f.key).readable (Store.process_get ..) hc
  | fetch | await | ended | lost => exact hc
  | compile =>
    simp only [compile]
    split <;> exact hc
  | adopt a | keep a =>
    rw [hs] at h
    exact hc.put h.2

theorem holds_of_work {place : Path} (hc : c.store.Undisturbed place) (hcap : c.store.capacity = none)
    (h : f.stage.Within b.client f.sizeLimits) (ho : f.stage.isOver = false) {e : Ending} {a : Artifact}
    (he : (f.work b cancelled turn c).stage = .ended e) (ha : e.artifact? = some a) :
    ∃ held, (f.work b cancelled turn c).caches.store.Holds f.key held := by
  have hput : ∀ a : Artifact, a.key = f.key ∧ a.size < Bytes.range 8 →
      ∃ held, (c.store.put f.key a).1.Holds f.key held := fun a ⟨hkey, hsize⟩ => by
    rw [← hkey]
    exact hc.holds_put hcap hsize
  simp only [work] at he ⊢
  cases hs : f.stage with
  | lookup =>
    simp only [hs] at he
    obtain ⟨hit, rfl⟩ : ∃ hit, e = .localHit hit := by
      simp only [lookup] at he
      split at he
      · exact ⟨_, (Stage.ended.inj he).symm⟩
      · cases he
      · cases he
    have hkept := hc.holds_call hcap (stage_lookup.mp he) (show (Store.Op.get f.key).Sized from trivial)
      trivial
    exact ⟨hit, by rw [caches_lookup]; exact hkept⟩
  | fetch =>
    simp only [hs, fetch] at he
    obtain rfl := cancelled_of_fetched he
    cases ha
  | await w =>
    simp only [hs, await] at he
    obtain rfl := cancelled_of_fetched he
    cases ha
  | compile =>
    simp only [hs, compile] at he
    split at he
    · cases he
    · cases he
      cases ha
    · cases he
      cases ha
  | adopt a | keep a =>
    rw [hs] at h
    exact hput a h
  | ended | lost =>
    rw [hs] at ho
    cases ho

end Flight

namespace Build

variable {b : Builder σ} {p : Plan} {place : Path} {first : Store} {s t : State σ} {e : Event}
  {es : List Event}

/-- A step makes one call on the store at most, and none that removes a key. -/
theorem Step.store (hs : Step b p s e t)
    (h : ∀ f ∈ s.flights, f.stage.Within b.client f.sizeLimits) :
    t.caches.store = s.caches.store ∨ ∃ op : Store.Op, op.Sized ∧ (∀ k, op.Keeps k) ∧
      t.caches.store = (op.onStore s.caches.store).1 := by
  cases hs with
  | finish => exact .inr ⟨.saveIndex, trivial, fun _ => trivial, rfl⟩
  | wait | skip | send | lose | join | abort | publish | cancel => exact .inl rfl
  | work hf | perish hf => exact Flight.store_work (h _ (List.mem_of_getElem? hf))

theorem Run.readable {c : Caches σ} (hb : b.compiler.Sized) (hc : c.store.Readable)
    (hr : Run b p Caches.SameStore (.initial p c) es s) : s.caches.store.Readable := by
  have h : s.caches.store.Readable ∧ ∀ f ∈ s.flights, f.stage.Within b.client f.sizeLimits := by
    refine hr.induction (I := fun s => s.caches.store.Readable ∧ ∀ f ∈ s.flights,
      f.stage.Within b.client f.sizeLimits)
      (fun s e t _ h hs => ⟨?_, ?_⟩) (fun s c' h hm => ⟨?_, h.2⟩) ⟨hc, fun f hf => absurd hf List.not_mem_nil⟩
    · cases hs with
      | finish => exact (Store.Shrinks.saveIndex _).readable rfl h.1
      | wait | skip | send | lose | join | abort | publish | cancel => exact h.1
      | work hf | perish hf => exact Flight.readable_work h.1 (h.2 _ (List.mem_of_getElem? hf))
    · exact hs.flights h.2 (fun _ _ _ _ _ _ => trivial) fun f hf _ _ =>
        (Flight.respects_sizeLimits hb).work (h.2 f hf)
    · exact (show c'.store = s.caches.store from hm) ▸ h.1
  exact h.1

/-- The store is left alone without a limit and keeps what it held; what came of units is in it. -/
structure Stored (b : Builder σ) (place : Path) (first : Store) (s : State σ) : Prop where
  undisturbed : s.caches.store.Undisturbed place
  unlimited : s.caches.store.capacity = none
  holds : ∀ k a, first.Holds k a → s.caches.store.Holds k a
  sized : ∀ f ∈ s.flights, f.stage.Within b.client f.sizeLimits
  ended : ∀ f ∈ s.flights, ∀ e a, f.stage = .ended e → e.artifact? = some a →
    ∃ held, s.caches.store.Holds f.key held
  results : ∀ r ∈ s.board.results, r.outcome.isSuccess = true →
    ∃ k held, r.key = some k ∧ s.caches.store.Holds k held

namespace Stored

theorem initial (p : Plan) {c : Caches σ} (hc : c.store.Undisturbed place)
    (hcap : c.store.capacity = none) : Stored b place c.store (.initial p c) where
  undisturbed := hc
  unlimited := hcap
  holds _ _ h := h
  sized _ hf := absurd hf List.not_mem_nil
  ended _ hf := absurd hf List.not_mem_nil
  results _ hr := absurd hr List.not_mem_nil

private theorem store_step (h : Stored b place first s) (hs : Step b p s e t) :
    t.caches.store.Undisturbed place ∧ t.caches.store.capacity = none ∧
      ∀ k a, s.caches.store.Holds k a → t.caches.store.Holds k a := by
  rcases hs.store h.sized with hsame | ⟨op, hop, hkeep, hcall⟩
  · rw [hsame]
    exact ⟨h.undisturbed, h.unlimited, fun _ _ hk => hk⟩
  · rw [hcall]
    exact ⟨h.undisturbed.call hop, (h.undisturbed.capacity_call hop).trans h.unlimited,
      fun k a hk => h.undisturbed.holds_call h.unlimited hk hop (hkeep k)⟩

theorem step (hb : b.compiler.Sized) (h : Stored b place first s) (hs : Step b p s e t) :
    Stored b place first t := by
  obtain ⟨hundisturbed, hunlimited, hkept⟩ := h.store_step hs
  have hsized := hs.flights h.sized (fun _ _ _ _ _ _ => trivial) fun f hf _ _ =>
    (Flight.respects_sizeLimits hb).work (h.sized f hf)
  have hended : ∀ f ∈ s.flights, ∀ e a, f.stage = .ended e → e.artifact? = some a →
      ∃ held, t.caches.store.Holds f.key held := fun f hf e a he ha => by
    obtain ⟨held, hheld⟩ := h.ended f hf e a he ha
    exact ⟨held, hkept _ _ hheld⟩
  refine ⟨hundisturbed, hunlimited, fun k a hk => hkept k a (h.holds k a hk), hsized, ?_, ?_⟩
  · cases hs with
    | finish | wait | skip | lose | publish | cancel => exact hended
    | send hphase hw hc hn hcause hsource =>
      intro f hf e a he
      rcases List.mem_append.mp hf with hf | hf
      · exact hended f hf e a he
      · rw [List.mem_singleton.mp hf] at he
        cases he
    | @work i turn f hf ho =>
      intro g hg e a he ha
      rcases List.mem_or_eq_of_mem_set hg with hg | rfl
      · exact hended g hg e a he ha
      · exact Flight.holds_of_work h.undisturbed h.unlimited (h.sized f (List.mem_of_getElem? hf)) ho he ha
    | join => exact fun f hf => hended f (List.mem_of_mem_eraseIdx hf)
    | perish | abort => exact fun f hf => absurd hf List.not_mem_nil
  · intro r hr hsuccess
    rcases hs.results_new hr with hr | ⟨-, -, -, -, n, rfl⟩ | ⟨-, n, cause, -, rfl⟩ |
      ⟨i, duration, f, g, hf, hg, -, rfl⟩
    · obtain ⟨k, a, hk, ha⟩ := h.results r hr hsuccess
      exact ⟨k, a, hk, hkept k a ha⟩
    · cases hsuccess
    · cases hsuccess
    · obtain ⟨a, ha⟩ := Ending.isSuccess_outcome.mp hsuccess
      obtain ⟨held, hheld⟩ := hended f (List.mem_of_getElem? hf) g a hg ha
      exact ⟨f.key, held, rfl, hheld⟩

end Stored

theorem Run.stored {c : Caches σ} (hb : b.compiler.Sized) (hc : c.store.Undisturbed place)
    (hcap : c.store.capacity = none) (hr : Run b p Caches.SameStore (.initial p c) es s) :
    Stored b place c.store s := by
  refine hr.induction (fun _ _ _ _ h hs => h.step hb hs) (fun s c' h hm => ?_) (.initial p hc hcap)
  have hsame : c'.store = s.caches.store := hm
  refine ⟨?_, ?_, ?_, h.sized, ?_, ?_⟩
  · exact hsame ▸ h.undisturbed
  · exact hsame ▸ h.unlimited
  · exact hsame ▸ h.holds
  · exact hsame ▸ h.ended
  · exact hsame ▸ h.results

/-- The dependencies of a unit that succeeded are successes, whatever else happened. -/
theorem State.Kept.needs_success {env : Environment} (hk : s.Kept p env) {r : UnitResult}
    (hr : r ∈ s.board.results) (hsuccess : r.outcome.isSuccess = true) {d : String}
    (hd : p.graph.Needs r.name d) :
    ∃ q ∈ s.board.results, q.name = d ∧ q.outcome.isSuccess = true := by
  obtain ⟨board, flights, ho, hboard⟩ := hk.exists_orderly
  have hsub : ∀ q ∈ board.results, q ∈ s.board.results := fun q hq => by
    rcases hboard with rfl | ⟨hclose, -, -⟩
    · exact hq
    · rw [hclose]
      exact List.mem_append_left _ hq
  have hmem : r ∈ board.results := by
    rcases hboard with rfl | ⟨hclose, -, -⟩
    · exact hr
    · rw [hclose] at hr
      refine (List.mem_append.mp hr).resolve_right fun hr => ?_
      obtain ⟨n, -, rfl⟩ := List.mem_map.mp hr
      cases hsuccess
  have hskip : r.outcome ≠ .skipped := fun hskip => by
    rw [hskip] at hsuccess
    cases hsuccess
  have htaken := ho.tracks.frontier.done_taken _ (List.mem_map_of_mem hmem)
  obtain ⟨-, q, hq, hqd, hbad, hqskip⟩ :=
    ho.needs_well (ho.tracks.frontier.taken_free _ htaken).2 (ho.accounts.worked r hmem hskip) hd
  obtain ⟨-, -, -, hqsuccess⟩ := ho.stocked.present q hq hbad hqskip
  exact ⟨q, hsub q hq, hqd, hqsuccess⟩

end Build
end BuildCache
