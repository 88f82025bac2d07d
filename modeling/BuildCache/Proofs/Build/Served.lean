import BuildCache.Proofs.Build.Delivered

/-! # What an empty store comes to serve: the outputs of units, to all units with the same key -/
namespace BuildCache

variable {σ : Type}

/-- All that the compiler looks at in a unit is part of its key: the content, and which dependencies
there are. -/
def Compiler.SeesKeyed (compile : Compiler) : Prop :=
  ∀ s t : Source, s.content = t.content → (∀ d, d ∈ s.dependencies ↔ d ∈ t.dependencies) → compile s = compile t

namespace Build

/-- Some unit has this key, and was compiled to these data on the artifacts of its dependencies. -/
def MadeFor (b : Builder σ) (p : Plan) (board : Board) (k : CacheKey) (data : Bytes) : Prop :=
  ∃ maker ∈ p.graph.sources, (p.keys b.environment).find? maker.name = some k ∧
    ∃ dependencies, Supplied board maker dependencies ∧ b.compiler maker dependencies = .output data

/-- All that a unit can come to was made for its key, and nothing of it comes from the remote. -/
def servedLimits (b : Builder σ) (p : Plan) (board : Board) (f : Flight) : Stage.Limits where
  answer result := ∀ raw, result ≠ .ok (some raw)
  artifact a := a.key = f.key ∧ MadeFor b p board f.key a.data
  ending e := ∀ a, e.artifact? = some a → a.key = f.key ∧ MadeFor b p board f.key a.data

/-- The store holds, and units come to, nothing but what was made for the keys. -/
structure MadeOnly (b : Builder σ) (p : Plan) (s : State σ) : Prop where
  store : s.caches.store.Sound (MadeFor b p s.board)
  flights : ∀ f ∈ s.flights, f.stage.Within b.client (servedLimits b p s.board f)
  artifacts : ∀ n a, s.board.artifacts.find? n = some a →
    (p.keys b.environment).find? n = some a.key ∧ MadeFor b p s.board a.key a.data

variable {b : Builder σ} {p : Plan} {c : Caches σ} {s t : State σ} {e : Event} {es : List Event}

theorem MadeFor.step (hk : s.Kept p b.environment) (hs : Step b p s e t) {k : CacheKey} {data : Bytes}
    (h : MadeFor b p s.board k data) : MadeFor b p t.board k data := by
  obtain ⟨maker, hmem, hkey, dependencies, hsupplied, houtput⟩ := h
  refine ⟨maker, hmem, hkey, dependencies, ⟨hsupplied.names, fun d hd => ?_⟩, houtput⟩
  obtain ⟨a, ha, hboard⟩ := hsupplied.artifacts d hd
  exact ⟨a, ha, hs.artifacts_subset hk hboard⟩

namespace MadeOnly

private theorem within_mono {board board' : Board} {f : Flight} {stage : Stage}
    (hmono : ∀ data, MadeFor b p board f.key data → MadeFor b p board' f.key data)
    (h : stage.Within b.client (servedLimits b p board f)) :
    stage.Within b.client (servedLimits b p board' f) := by
  cases stage with
  | lookup | fetch | await | compile | lost => exact h
  | adopt a | keep a => exact ⟨h.1, hmono a.data h.2⟩
  | ended e => exact fun a ha => ⟨(h a ha).1, hmono a.data (h a ha).2⟩

private theorem respects (h : MadeOnly b p s)
    (hsilent : ∀ k remote raw, (b.client.backend.fetch k remote).2.result ≠ .ok (some raw)) {f : Flight}
    (hsent : Board.Sent p b.environment f) (hsupplied : Supplied s.board f.source f.dependencies)
    (turn : Turn) :
    Flight.Respects b s.cancelled turn s.caches f (servedLimits b p s.board f) where
  hit a hget := by
    obtain ⟨raw, hfile, hdecode⟩ := Store.get_some hget
    rintro _ ⟨⟩
    exact ⟨Artifact.key_of_parse hdecode, h.store f.key raw a hfile hdecode⟩
  answers raw := hsilent f.key _ raw
  times raw := nofun
  decodes raw a hanswer _ := absurd rfl (hanswer raw)
  cancels _ a ha := by cases ha
  adopts a hmade := by
    rintro _ ⟨⟩
    exact hmade
  keeps a hmade := by
    rintro _ ⟨⟩
    exact hmade
  output data houtput :=
    ⟨rfl, f.source, (Graph.find?_eq_some.mp hsent.source).1, hsent.key, f.dependencies, hsupplied, houtput⟩
  rejects message _ a ha := by cases ha
  crashes _ a ha := by cases ha

private theorem step (hk : s.Kept p b.environment)
    (hsupplied : ∀ f ∈ s.flights, Supplied s.board f.source f.dependencies)
    (hsilent : ∀ k remote raw, (b.client.backend.fetch k remote).2.result ≠ .ok (some raw))
    (h : MadeOnly b p s) (hs : Step b p s e t) : MadeOnly b p t where
  store := by
    have hmono : s.caches.store.Sound (MadeFor b p t.board) :=
      fun k content a hfile hdecode => (h.store k content a hfile hdecode).step hk hs
    refine hs.sound_store hmono fun f hf a hstored => ?_
    have hwithin := h.flights f hf
    rcases hstored with ⟨hstage, -⟩ | ⟨hstage, -⟩ <;>
    · rw [hstage] at hwithin
      exact hwithin.2.step hk hs
  flights := by
    have hmono : ∀ f : Flight, ∀ data, MadeFor b p s.board f.key data → MadeFor b p t.board f.key data :=
      fun _ _ hmade => hmade.step hk hs
    refine hs.flights (fun f hf => within_mono (hmono f) (h.flights f hf)) (fun _ _ _ _ _ _ => trivial)
      fun f hf turn _ => ?_
    have hwork := (h.respects hsilent (hk.sent hf) (hsupplied f hf) turn).work (h.flights f hf)
    exact within_mono (hmono f) hwork
  artifacts n a ha := by
    rcases hs.artifacts_new ha with hold | ⟨i, duration, f, g, -, hf, rfl, hg, hga, -⟩
    · exact ⟨(h.artifacts n a hold).1, (h.artifacts n a hold).2.step hk hs⟩
    · have hmem := List.mem_of_getElem? hf
      have hwithin := h.flights f hmem
      rw [hg] at hwithin
      obtain ⟨hkey, hmade⟩ := hwithin a hga
      rw [hkey]
      exact ⟨(hk.sent hmem).key, hmade.step hk hs⟩

end MadeOnly

theorem Run.madeOnly {meddles : Caches σ → Caches σ → Prop} (hp : p.Valid) (hempty : c.store.Bare)
    (hsilent : ∀ k remote raw, (b.client.backend.fetch k remote).2.result ≠ .ok (some raw))
    (hmeddles : ∀ c c', meddles c c' → Store.Shrinks c.store c'.store)
    (hr : Run b p meddles (.initial p c) es s) : MadeOnly b p s := by
  refine Run.history (I := fun _ s => MadeOnly b p s) (fun es s e t hr h hs => ?_) (fun es s c' hr h hm => ?_)
    ⟨fun k content a hfile hdecode => (hempty k content a hfile hdecode).elim, ?_, ?_⟩ hr
  · exact h.step (hr.kept hp) (hr.supplied hp) hsilent (step_of_step? hs)
  · exact ⟨(hmeddles _ _ hm).sound h.store, h.flights, h.artifacts⟩
  · exact fun f hf => absurd hf List.not_mem_nil
  · intro n a ha
    cases ha

/-- A success comes with an artifact on the board, and has the key that the plan has for it. -/
theorem State.Kept.exists_artifact {env : Environment} (hk : s.Kept p env) {r : UnitResult}
    (hr : r ∈ s.board.results) (hsuccess : r.outcome.isSuccess = true) :
    r.key = (p.keys env).find? r.name ∧
      ∃ a, s.board.artifacts.find? r.name = some a ∧ r.artifact = some a.ref := by
  have hskip : r.outcome ≠ .skipped := fun ho => by
    rw [ho] at hsuccess
    cases hsuccess
  have hbad : ¬r.isBad := fun hbad => by
    rcases (by simpa [UnitResult.isBad] using hbad) with ho | ho <;>
    · rw [ho] at hsuccess
      cases hsuccess
  obtain ⟨board, flights, ho, rfl | ⟨hclose, -, -⟩⟩ := hk.exists_orderly
  · obtain ⟨a, ha, hshown, -⟩ := ho.stocked.present r hr hbad hskip
    exact ⟨ho.keyed.results r hr hskip, a, ha, hshown⟩
  · rw [hclose] at hr ⊢
    rcases List.mem_append.mp hr with hr | hr
    · obtain ⟨a, ha, hshown, -⟩ := ho.stocked.present r hr hbad hskip
      exact ⟨ho.keyed.results r hr hskip, a, ha, hshown⟩
    · obtain ⟨n, -, rfl⟩ := List.mem_map.mp hr
      cases hsuccess

/-- A unit is served an artifact with its key, which is what the compiler makes of some unit with this
key on the artifacts of that unit's dependencies. -/
structure ServedBy (b : Builder σ) (sources : List Source) (board : Board) (r : UnitResult) (a : Artifact)
    (maker : Source) : Prop where
  artifact : board.artifacts.find? r.name = some a ∧ r.artifact = some a.ref
  key : r.key = some a.key ∧ MerkleKey sources b.environment r.name a.key
  shares : maker ∈ sources ∧ MerkleKey sources b.environment maker.name a.key
  output : b.compiler maker (board.dependencyArtifacts maker) = .output a.data

/-- Without a remote, and from a store with nothing of use, every success is served the output of a unit
with its key. Without a collision the two have the same content and the same dependencies, with the same
artifacts: a compiler that sees no more of a unit has made the unit's own output. -/
theorem serves_by_key {meddles : Caches σ → Caches σ → Prop} {sources : List Source}
    (hp : Plan.ofSources sources = .ok p) (hempty : c.store.Bare)
    (hsilent : ∀ k remote raw, (b.client.backend.fetch k remote).2.result ≠ .ok (some raw))
    (hmeddles : ∀ c c', meddles c c' → Store.Shrinks c.store c'.store)
    (hr : Run b p meddles (.initial p c) es s) {r : UnitResult} (hmem : r ∈ s.board.results)
    (hsuccess : r.outcome.isSuccess = true) :
    ∃ a maker, ServedBy b sources s.board r a maker ∧
      (CollisionFree (Hashed sources b.environment) → Countable sources → b.environment.Countable →
        ∀ own ∈ sources, own.name = r.name →
          own.content = maker.content ∧ (∀ d, d ∈ own.dependencies ↔ d ∈ maker.dependencies) ∧
          s.board.dependencyArtifacts own = s.board.dependencyArtifacts maker ∧
          (b.compiler.SeesKeyed → b.compiler own (s.board.dependencyArtifacts own) = .output a.data)) := by
  obtain ⟨hv, rfl⟩ := Plan.ofSources_ok hp
  have hk := hr.kept hv
  have honly := hr.madeOnly hv hempty hsilent hmeddles
  obtain ⟨hkey, a, ha, hshown⟩ := hk.exists_artifact hmem hsuccess
  obtain ⟨hfind, maker, hmaker, hshared, dependencies, hsupplied, houtput⟩ := honly.artifacts r.name a ha
  rw [hsupplied.eq] at houtput
  have hown : MerkleKey p.graph.sources b.environment r.name a.key :=
    hk.merkleKey hv hmem (hkey.trans hfind)
  have hshares : MerkleKey p.graph.sources b.environment maker.name a.key :=
    hv.merkleKey _ (List.mem_map_of_mem hmaker) hshared
  refine ⟨a, maker, ⟨⟨ha, hshown⟩, ⟨hkey.trans hfind, hown⟩, ⟨hmaker, hshares⟩, houtput⟩, ?_⟩
  intro hfree hsize henv own hmem' hname
  obtain ⟨hcontent, hnames⟩ := MerkleKey.alike p.graph.names_nodup hfree hsize henv hmem' hmaker
    (hname ▸ hown) hshares
  have hsame : s.board.dependencyArtifacts own = s.board.dependencyArtifacts maker :=
    NameMap.ext_find? fun d => by
      rw [find?_dependencyArtifacts, find?_dependencyArtifacts]
      simp only [hnames]
  exact ⟨hcontent, hnames, hsame, fun hsees => by rw [hsees own maker hcontent hnames, hsame, houtput]⟩

/-- A compiler whose output is the name of the unit, and no remote. -/
def namingBuilder : Builder Unit :=
  .of (fun s _ => .output (Bytes.ofText s.name)) (.disabled Unit .millisecond) (.ofVersions "OTP-27" "0.1.0") 1

/-- Two units with a key in common: one is compiled, the other is found in the store. -/
def twinEvents : List Event :=
  firstEvents ++ [.release, .work 0 (.plain 0), .release, .join 0 0, .release]

theorem serves_by_key_twins : Plan.ofSources twins = .ok twinsPlan ∧
    ∃ s : State Unit, (State.initial twinsPlan emptyCaches).steps? namingBuilder twinsPlan twinEvents = some s ∧
      ∃ r ∈ s.board.results, r.name = "c" ∧ r.outcome = .localHit ∧
        ∃ a maker, ServedBy namingBuilder twins s.board r a maker ∧
          s.board.dependencyArtifacts ⟨"c", [], []⟩ = s.board.dependencyArtifacts maker := by
  have hp : Plan.ofSources twins = .ok twinsPlan := by cbv
  have hsteps : ((State.initial twinsPlan emptyCaches).steps? namingBuilder twinsPlan twinEvents).any
      (fun s => s.board.results.any fun r => r.name = "c" && r.outcome = .localHit) = true := by
    decide +kernel
  obtain ⟨s, hs, hresults⟩ := (Option.any_eq_true _ _).mp hsteps
  obtain ⟨r, hr, hhit⟩ := List.any_eq_true.mp hresults
  obtain ⟨hname, houtcome⟩ : r.name = "c" ∧ r.outcome = .localHit := by simpa using hhit
  have hfree : CollisionFree (Hashed twins namingBuilder.environment) :=
    .of_bare fun x hx => Hashed.eq_of_bare (by decide) hx
  have hrun : Run namingBuilder twinsPlan (fun _ _ => False) (.initial twinsPlan emptyCaches) twinEvents s :=
    .of_steps? hs
  obtain ⟨a, maker, hserved, hown⟩ := serves_by_key hp (.of_directories (by decide)) (fun _ _ _ h => by cases h)
    (fun _ _ h => h.elim) hrun hr (by rw [houtcome]; rfl)
  have hsame := (hown hfree (by decide +kernel) countable_environment ⟨"c", [], []⟩ (by decide) hname.symm).2.2.1
  exact ⟨hp, s, hs, r, hr, hname, houtcome, a, maker, hserved, hsame⟩

/-- A unit is served what was compiled for another one, though the compiler tells the two apart. -/
theorem serves_output_of_other : ∃ s a, namingBuilder.build emptyCaches twins .never (.plain 0) = .ok s ∧
    s.phase = .finished ∧ (∃ r ∈ s.board.results, r.name = "c" ∧ r.outcome = .localHit ∧ r.artifact = some a.ref) ∧
    s.board.artifacts.find? "c" = some a ∧ a.data = Bytes.ofText "a" ∧
    ∀ dependencies, namingBuilder.compiler ⟨"c", [], []⟩ dependencies = .output (Bytes.ofText "c") := by
  have hp : Plan.ofSources twins = .ok twinsPlan := by cbv
  have hbuild : (namingBuilder.build emptyCaches twins .never (.plain 0)).toOption.any (fun s =>
      s.phase = .finished && (s.board.artifacts.find? "c").any fun a => a.data = Bytes.ofText "a" &&
        s.board.results.any fun r => r.name = "c" && r.outcome = .localHit && r.artifact = some a.ref) = true := by
    rw [Builder.build, hp]
    decide +kernel
  obtain ⟨s, hs, hfacts⟩ := (Option.any_eq_true _ _).mp hbuild
  obtain ⟨hphase, hfacts⟩ := Bool.and_eq_true_iff.mp hfacts
  obtain ⟨a, ha, hfacts⟩ := (Option.any_eq_true _ _).mp hfacts
  obtain ⟨hdata, hresults⟩ := Bool.and_eq_true_iff.mp hfacts
  obtain ⟨r, hr, hshown⟩ := List.any_eq_true.mp hresults
  refine ⟨s, a, ?_, of_decide_eq_true hphase, ⟨r, hr, ?_⟩, ha, of_decide_eq_true hdata, fun _ => rfl⟩
  · cases h : namingBuilder.build emptyCaches twins .never (.plain 0) with
    | error e =>
      rw [h] at hs
      cases hs
    | ok t =>
      rw [h] at hs
      cases hs
      rfl
  · simpa [and_assoc] using hshown

end Build
end BuildCache
