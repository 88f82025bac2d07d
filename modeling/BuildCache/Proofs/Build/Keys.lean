import BuildCache.Proofs.Build.Schedule
import BuildCache.Proofs.Derivation

/-! # Keys of units are Merkle keys: they tell the unit, all that it depends on, and the environment -/
namespace BuildCache

/-- The key of a unit: derived from its content, the keys of its distinct dependencies and the
environment. -/
inductive MerkleKey (sources : List Source) (env : Environment) : String → CacheKey → Prop
  | derive {s : Source} {dependencies : List (String × CacheKey)} (hs : s ∈ sources)
      (hnames : dependencies.map (·.1) = s.distinctDependencies)
      (hkeys : ∀ d ∈ dependencies, MerkleKey sources env d.1 d.2) :
      MerkleKey sources env s.name (Derivation.key ⟨s.hash, dependencies, env⟩)

/-- A unit is there in both lists with the same content and the same set of names of dependencies,
and so is all that it depends on. -/
inductive SameClosure (sources sources' : List Source) : String → Prop
  | same {s s' : Source} (hs : s ∈ sources) (hs' : s' ∈ sources') (hname : s'.name = s.name)
      (hcontent : s.content = s'.content) (hnames : ∀ d, d ∈ s.dependencies ↔ d ∈ s'.dependencies)
      (hrest : ∀ d ∈ s.dependencies, SameClosure sources sources' d) : SameClosure sources sources' s.name

theorem Plan.Valid.merkleKey {p : Plan} (hp : p.Valid) (env : Environment) {n : String} {k : CacheKey}
    (hn : n ∈ p.graph.names) (hk : (p.keys env).find? n = some k) :
    MerkleKey p.graph.sources env n k := by
  induction n using hp.acyclic.induction generalizing k with
  | _ n ih =>
    obtain ⟨s, hs, rfl⟩ := Graph.exists_find? hn
    have heq : (p.keys env).find? s.name
        = some (Derivation.key ⟨s.hash, (p.keys env).select s.distinctDependencies, env⟩) :=
          evaluate_eq hp hs
    rw [hk, Option.some.injEq] at heq
    rw [heq]
    refine .derive (Graph.find?_eq_some.mp hs).1 (map_fst_evaluate hp hs) fun d hd => ?_
    obtain ⟨hmem, hfind⟩ := NameMap.mem_select.mp hd
    have hneeds : p.graph.Needs s.name d.1 :=
      (hp.needs_iff hs).mpr (Source.mem_distinctDependencies.mp hmem)
    exact ih d.1 hneeds hneeds.right_mem hfind

namespace MerkleKey

variable {sources sources' : List Source} {env env' : Environment} {n : String} {k k' : CacheKey}

theorem inv (hn : (sources.map (·.name)).Nodup) {s : Source} (hs : s ∈ sources)
    (h : MerkleKey sources env s.name k) :
    ∃ dependencies : List (String × CacheKey), dependencies.map (·.1) = s.distinctDependencies ∧
      (∀ d ∈ dependencies, MerkleKey sources env d.1 d.2) ∧
        k = Derivation.key ⟨s.hash, dependencies, env⟩ := by
  generalize hname : s.name = m at h
  cases h with
  | @derive t dependencies ht hnames hkeys =>
    obtain rfl : s = t := List.inj_on_of_nodup_map hn hs ht hname
    exact ⟨dependencies, hnames, hkeys, rfl⟩

theorem sameClosure (h : MerkleKey sources env n k) : SameClosure sources sources n := by
  induction h with
  | @derive s dependencies hs hnames hkeys ih =>
    refine .same hs hs rfl rfl (fun _ => Iff.rfl) fun d hd => ?_
    rw [← Source.mem_distinctDependencies, ← hnames] at hd
    obtain ⟨e, he, rfl⟩ := List.mem_map.mp hd
    exact ih e he

theorem congr (hn : (sources.map (·.name)).Nodup) (hn' : (sources'.map (·.name)).Nodup)
    (hsame : SameClosure sources sources' n) (h : MerkleKey sources env n k)
    (h' : MerkleKey sources' env n k') :
    k = k' := by
  induction hsame generalizing k k' with
  | @same s s' hs hs' hname hcontent hnames hrest ih =>
    obtain ⟨dependencies, hd, hkeys, rfl⟩ := inv hn hs h
    rw [← hname] at h'
    obtain ⟨dependencies', hd', hkeys', rfl⟩ := inv hn' hs' h'
    have hmem : ∀ d : String × CacheKey, d ∈ dependencies → d.1 ∈ s.dependencies := fun d hm =>
      Source.mem_distinctDependencies.mp (hd ▸ List.mem_map_of_mem hm)
    have hmem' : ∀ d : String × CacheKey, d ∈ dependencies' → d.1 ∈ s'.dependencies := fun d hm =>
      Source.mem_distinctDependencies.mp (hd' ▸ List.mem_map_of_mem hm)
    have hordered : Derivation.ordered dependencies = Derivation.ordered dependencies' := by
      refine Derivation.ordered_congr fun d => ⟨fun hm => ?_, fun hm => ?_⟩
      · have hdep := Source.mem_distinctDependencies.mpr ((hnames d.1).mp (hmem d hm))
        rw [← hd'] at hdep
        obtain ⟨d', hm', he⟩ := List.mem_map.mp hdep
        have hkey := ih d.1 (hmem d hm) (hkeys d hm) (he ▸ hkeys' d' hm')
        rwa [Prod.ext he.symm hkey]
      · have hdep := Source.mem_distinctDependencies.mpr ((hnames d.1).mpr (hmem' d hm))
        rw [← hd] at hdep
        obtain ⟨d', hm', he⟩ := List.mem_map.mp hdep
        have hkey := ih d.1 (he ▸ hmem d' hm') (he ▸ hkeys d' hm') (hkeys' d hm)
        rwa [← Prod.ext he hkey]
    rw [Derivation.key, Derivation.key, Derivation.preimage, Derivation.preimage, hordered,
      Source.hash, Source.hash, hcontent]

end MerkleKey

/-- The byte strings that are hashed for the keys of units: contents, and what keys are derived from. -/
inductive Hashed (sources : List Source) (env : Environment) : Bytes → Prop
  | content {s : Source} (hs : s ∈ sources) : Hashed sources env s.content
  | preimage {s : Source} {dependencies : List (String × CacheKey)} (hs : s ∈ sources)
      (hnames : dependencies.map (·.1) = s.distinctDependencies)
      (hkeys : ∀ d ∈ dependencies, MerkleKey sources env d.1 d.2) :
      Hashed sources env (Derivation.preimage ⟨s.hash, dependencies, env⟩)

/-- No two different byte strings of a kind have the same digest. -/
def CollisionFree (P : Bytes → Prop) : Prop := ∀ x y, P x → P y → Blake3.hash x = Blake3.hash y → x = y

/-- Units whose dependencies can be counted, and the lengths of their names. -/
def Countable (sources : List Source) : Prop :=
  ∀ s ∈ sources, s.dependencies.length < Bytes.range 8 ∧ ∀ d ∈ s.dependencies, Derivation.Countable d

instance (sources : List Source) : Decidable (Countable sources) :=
  inferInstanceAs (Decidable (∀ s ∈ sources, s.dependencies.length < Bytes.range 8 ∧
    ∀ d ∈ s.dependencies, Derivation.Countable d))

theorem Source.length_distinct_le (seen names : List String) :
    (distinct seen names).length ≤ names.length := by
  induction names generalizing seen with
  | nil => exact Nat.le_refl _
  | cons n names ih =>
    simp only [distinct]
    split
    · exact Nat.le_succ_of_le (ih seen)
    · exact Nat.succ_le_succ (ih _)

theorem Countable.fits {sources : List Source} {env : Environment} (h : Countable sources)
    (henv : env.Countable) {s : Source} (hs : s ∈ sources) {dependencies : List (String × CacheKey)}
    (hnames : dependencies.map (·.1) = s.distinctDependencies) :
    Derivation.Fits ⟨s.hash, dependencies, env⟩ := by
  refine ⟨?_, fun d hd => (h s hs).2 d.1 ?_, henv⟩
  · have hlen := congrArg List.length hnames
    rw [List.length_map] at hlen
    exact Nat.lt_of_le_of_lt (hlen ▸ Source.length_distinct_le [] s.dependencies) (h s hs).1
  · exact Source.mem_distinctDependencies.mp (hnames ▸ List.mem_map_of_mem hd)

theorem Source.mem_dependencies_iff {s : Source} {dependencies : List (String × CacheKey)}
    (hnames : dependencies.map (·.1) = s.distinctDependencies) (d : String) :
    d ∈ s.dependencies ↔ ∃ l, (d, l) ∈ dependencies := by
  rw [← Source.mem_distinctDependencies, ← hnames, List.mem_map]
  constructor
  · rintro ⟨e, he, rfl⟩
    exact ⟨e.2, he⟩
  · rintro ⟨l, hl⟩
    exact ⟨_, hl, rfl⟩

theorem Digest.hash_inj {P : Bytes → Prop} (h : CollisionFree P) {x y : Bytes} (hx : P x) (hy : P y)
    (he : Digest.hash x = Digest.hash y) : x = y := h x y hx hy (congrArg Digest.bytes he)

/-- Without a collision, keys that are equal were derived from the same content, the same keys of
dependencies and the same environment. -/
theorem Hashed.derivation_inj {sources sources' : List Source} {env env' : Environment}
    (hc : CollisionFree fun x => Hashed sources env x ∨ Hashed sources' env' x)
    (hsize : Countable sources) (hsize' : Countable sources') (henv : env.Countable)
    (henv' : env'.Countable) {s s' : Source} {dependencies dependencies' : List (String × CacheKey)}
    (hs : s ∈ sources) (hs' : s' ∈ sources') (hnames : dependencies.map (·.1) = s.distinctDependencies)
    (hnames' : dependencies'.map (·.1) = s'.distinctDependencies)
    (hkeys : ∀ d ∈ dependencies, MerkleKey sources env d.1 d.2)
    (hkeys' : ∀ d ∈ dependencies', MerkleKey sources' env' d.1 d.2)
    (h : Derivation.key ⟨s.hash, dependencies, env⟩ = Derivation.key ⟨s'.hash, dependencies', env'⟩) :
    env = env' ∧ s.content = s'.content ∧ ∀ d, d ∈ dependencies ↔ d ∈ dependencies' := by
  have hpreimage := Digest.hash_inj hc (.inl (.preimage hs hnames hkeys))
    (.inr (.preimage hs' hnames' hkeys')) (congrArg CacheKey.digest h)
  obtain ⟨hcontent, hdeps, he⟩ := Derivation.preimage_inj (hsize.fits henv hs hnames)
    (hsize'.fits henv' hs' hnames') hpreimage
  have hbytes := Digest.hash_inj hc (.inl (.content hs)) (.inr (.content hs'))
    (congrArg ContentHash.digest hcontent)
  exact ⟨he, hbytes, hdeps⟩

/-- Without a collision, units that share a key have the same content and the same dependencies. -/
theorem MerkleKey.alike {sources : List Source} {env : Environment} {k : CacheKey}
    (hn : (sources.map (·.name)).Nodup) (hc : CollisionFree (Hashed sources env))
    (hsize : Countable sources) (henv : env.Countable) {s t : Source} (hs : s ∈ sources)
    (ht : t ∈ sources) (h : MerkleKey sources env s.name k) (h' : MerkleKey sources env t.name k) :
    s.content = t.content ∧ ∀ d, d ∈ s.dependencies ↔ d ∈ t.dependencies := by
  obtain ⟨dependencies, hnames, hkeys, rfl⟩ := h.inv hn hs
  obtain ⟨dependencies', hnames', hkeys', hkey⟩ := h'.inv hn ht
  have hc : CollisionFree fun x => Hashed sources env x ∨ Hashed sources env x := by simpa using hc
  obtain ⟨-, hcontent, hdeps⟩ :=
    Hashed.derivation_inj hc hsize hsize henv henv hs ht hnames hnames' hkeys hkeys' hkey
  refine ⟨hcontent, fun d => ?_⟩
  rw [Source.mem_dependencies_iff hnames, Source.mem_dependencies_iff hnames']
  exact exists_congr fun l => hdeps (d, l)

/-- Without a collision, equal keys come from the same closure and the same environment. -/
theorem MerkleKey.same {sources sources' : List Source} {env env' : Environment}
    {n : String} {k : CacheKey}
    (hc : CollisionFree fun x => Hashed sources env x ∨ Hashed sources' env' x)
    (hsize : Countable sources)
    (hsize' : Countable sources') (henv : env.Countable) (henv' : env'.Countable)
    (h : MerkleKey sources env n k)
    (h' : MerkleKey sources' env' n k) : env = env' ∧ SameClosure sources sources' n := by
  induction h with
  | @derive s dependencies hs hnames hkeys ih =>
    generalize hkey : Derivation.key ⟨s.hash, dependencies, env⟩ = l at h'
    generalize hname : s.name = m at h'
    cases h' with
    | @derive s' dependencies' hs' hnames' hkeys' =>
      obtain ⟨he, hbytes, hdeps⟩ := Hashed.derivation_inj hc hsize hsize' henv henv' hs hs' hnames
        hnames' hkeys hkeys' hkey
      have hmem : ∀ d, d ∈ s.dependencies ↔ ∃ l, (d, l) ∈ dependencies :=
        Source.mem_dependencies_iff hnames
      have hmem' : ∀ d, d ∈ s'.dependencies ↔ ∃ l, (d, l) ∈ dependencies' :=
        Source.mem_dependencies_iff hnames'
      rw [← hname]
      refine ⟨he, .same hs hs' hname.symm hbytes (fun d => ?_) fun d hd => ?_⟩
      · rw [hmem, hmem']
        exact exists_congr fun l => hdeps (d, l)
      · obtain ⟨l, hl⟩ := (hmem d).mp hd
        exact (ih (d, l) hl (hkeys' (d, l) ((hdeps _).mp hl))).2

theorem Hashed.eq_of_bare {sources : List Source} {env : Environment} {x : Bytes}
    (hbare : ∀ s ∈ sources, s.content = [] ∧ s.dependencies = []) (hx : Hashed sources env x) :
    x = [] ∨ x = Derivation.preimage ⟨.ofBytes [], [], env⟩ := by
  cases hx with
  | content hs => exact .inl (hbare _ hs).1
  | @preimage s dependencies hs hnames hkeys =>
    obtain ⟨hcontent, hnone⟩ := hbare s hs
    rw [Source.distinctDependencies, hnone] at hnames
    obtain rfl := List.map_eq_nil_iff.mp hnames
    rw [Source.hash, hcontent]
    exact .inr rfl

theorem CollisionFree.of_bare {P : Bytes → Prop}
    (h : ∀ x, P x → x = [] ∨ x = Derivation.preimage ⟨.ofBytes [], [], .ofVersions "OTP-27" "0.1.0"⟩) :
    CollisionFree P := by
  have hdiffer : Blake3.hash []
      ≠ Blake3.hash (Derivation.preimage ⟨.ofBytes [], [], .ofVersions "OTP-27" "0.1.0"⟩) :=
        by decide +kernel
  intro x y hx hy he
  rcases h x hx with rfl | rfl <;> rcases h y hy with rfl | rfl
  · rfl
  · exact absurd he hdiffer
  · exact absurd he.symm hdiffer
  · rfl

namespace Build

variable {σ τ : Type}

theorem State.Kept.merkleKey {p : Plan} (hp : p.Valid) {env : Environment} {s : State σ}
    (hk : s.Kept p env)
    {r : UnitResult} (hr : r ∈ s.board.results) {k : CacheKey} (h : r.key = some k) :
    MerkleKey p.graph.sources env r.name k := by
  have horderly : ∀ {board flights}, Orderly p env board flights → r ∈ board.results →
      MerkleKey p.graph.sources env r.name k := fun {board flights} ho hr => by
    have hknown := ho.tracks.known (ho.tracks.frontier.done_taken _ (List.mem_map_of_mem hr))
    apply hp.merkleKey env hknown
    by_cases hs : r.outcome = .skipped
    · obtain ⟨c, -, he⟩ := ho.accounts.skipped r hr hs
      rw [he] at h
      cases h
    · rw [← ho.keyed.results r hr hs, h]
  obtain ⟨board, flights, ho, rfl | ⟨hclose, -, -⟩⟩ := hk.exists_orderly
  · exact horderly ho hr
  · rw [hclose] at hr
    rcases List.mem_append.mp hr with hr | hr
    · exact horderly ho hr
    · obtain ⟨n, hn, rfl⟩ := List.mem_map.mp hr
      exact hp.merkleKey env (hp.mem_order.mp (List.mem_filter.mp hn).1) (ho.keyed.correct n k h)

theorem State.eq_of_report {s : State σ} {startedAt : Timestamp} {elapsed : Duration} {report : Report}
    (h : s.report startedAt elapsed = .ok report) : report = .ofResults startedAt elapsed s.board.results := by
  simp only [State.report] at h
  split at h
  · split at h <;> cases h
  · cases h
    rfl

theorem State.mem_results_of_report {s : State σ} {startedAt : Timestamp} {elapsed : Duration}
    {report : Report} (h : s.report startedAt elapsed = .ok report) {n : String} {r : UnitResult}
    (hr : report.results.find? n = some r) :
    r ∈ s.board.results ∧ r.name = n := by
  obtain rfl := State.eq_of_report h
  obtain ⟨q, hq, he⟩ := List.mem_map.mp (NameMap.mem_of_find?_ofList hr)
  cases he
  exact ⟨hq, rfl⟩

theorem State.Kept.flights_eq_nil {p : Plan} {env : Environment} {s : State σ} (hk : s.Kept p env)
    (hphase : s.phase = .finished) : s.flights = [] := by
  simp only [State.Kept, hphase] at hk
  obtain ⟨-, -, -, hflights, -⟩ := hk
  exact hflights

theorem State.Kept.exists_result {b : Builder σ} {p : Plan} {s : State σ} (hp : p.Valid)
    (hk : s.Kept p b.environment) (hphase : s.phase = .finished) {n : String} (hn : n ∈ p.graph.names) :
    ∃ r ∈ s.board.results, r.name = n := by
  obtain ⟨report, hreport, hperm, -⟩ := hk.exists_report hp hphase .newYear 0
  obtain ⟨r, hfind⟩ := NameMap.mem_names.mp (hperm.mem_iff.mpr hn)
  exact ⟨r, State.mem_results_of_report hreport hfind⟩

/-- Some run of some build of units reports a key of one of them. -/
def Reported (b : Builder σ) (sources : List Source) (n : String) (k : CacheKey) : Prop :=
  ∃ p c meddles es s startedAt elapsed report r, Plan.ofSources sources = .ok p ∧
    Run b p meddles (.initial p c) es s ∧ s.report startedAt elapsed = .ok report ∧
    report.results.find? n = some r ∧ r.key = some k

theorem Reported.merkleKey {b : Builder σ} {sources : List Source} {n : String} {k : CacheKey}
    (h : Reported b sources n k) : (sources.map (·.name)).Nodup ∧
      MerkleKey sources b.environment n k := by
  obtain ⟨p, c, meddles, es, s, startedAt, elapsed, report, r, hp, hr, hreport, hfind, hkey⟩ := h
  obtain ⟨hv, rfl⟩ := Plan.ofSources_ok hp
  obtain ⟨hmem, rfl⟩ := State.mem_results_of_report hreport hfind
  exact ⟨p.graph.names_nodup, (hr.kept hv).merkleKey hv hmem hkey⟩

/-- A key that is reported is the Merkle key of its unit. So two builds report the same key if the
closures and the environments are the same, and, without a collision, only then. -/
theorem reported_keys {b : Builder σ} {b' : Builder τ} {sources sources' : List Source} {n : String}
    {k k' : CacheKey} (h : Reported b sources n k) (h' : Reported b' sources' n k') :
    (∀ l, MerkleKey sources b.environment n l ↔ l = k) ∧
    (SameClosure sources sources' n → b.environment = b'.environment → k = k') ∧
    ((CollisionFree fun x => Hashed sources b.environment x ∨ Hashed sources' b'.environment x) →
      Countable sources → Countable sources' → b.environment.Countable → b'.environment.Countable →
      k = k' → b.environment = b'.environment ∧ SameClosure sources sources' n) := by
  obtain ⟨hn, hk⟩ := h.merkleKey
  obtain ⟨hn', hk'⟩ := h'.merkleKey
  refine ⟨fun l => ⟨fun hl => MerkleKey.congr hn hn hk.sameClosure hl hk, fun hl => hl ▸ hk⟩,
    fun hs he => ?_, ?_⟩
  · exact MerkleKey.congr hn hn' hs hk (he ▸ hk')
  · rintro hc hsize hsize' henv henv' rfl
    exact hk.same hc hsize hsize' henv henv' hk'

def acceptingBuilder : Builder Unit := .of (fun _ _ => .output []) (.disabled Unit .millisecond)
    (.ofVersions "OTP-27" "0.1.0") 1

def twins : List Source := [⟨"c", [], []⟩, ⟨"a", [], []⟩]

def twinsPlan : Plan := ⟨edgeless twins (by decide), ["a", "c"]⟩

def firstEvents : List Event :=
  [.release, .work 0 (.plain 0), .work 0 (.plain 0), .work 0 (.plain 0), .work 0 (.plain 0),
  .release, .join 0 0]

/-- The key that is reported after some events. -/
def keyAfter? (b : Builder Unit) (p : Plan) (es : List Event) (n : String) : Option CacheKey := do
  let s ← (State.initial p emptyCaches).steps? b p es
  let report ← (s.report .newYear 0).toOption
  (← report.results.find? n).key

theorem Reported.of_keyAfter? {b : Builder Unit} {sources : List Source} {p : Plan}
    {es : List Event} {n : String}
    {k : CacheKey} (hp : Plan.ofSources sources = .ok p) (h : keyAfter? b p es n = some k) :
    Reported b sources n k := by
  simp only [keyAfter?, bind, Option.bind_eq_some_iff] at h
  obtain ⟨s, hs, report, hreport, r, hr, hk⟩ := h
  exact ⟨p, emptyCaches, fun _ _ => False, es, s, .newYear, 0, report, r, hp, .of_steps? hs,
    Result.toOption_eq_some.mp hreport, hr, hk⟩

theorem countable_environment : acceptingBuilder.environment.Countable :=
  ⟨by decide +kernel, by decide +kernel, by decide +kernel, by decide +kernel⟩

theorem reported_keys_twins : ∃ k, Reported acceptingBuilder lone "a" k ∧
    Reported acceptingBuilder twins "a" k ∧
    (∀ l, MerkleKey lone acceptingBuilder.environment "a" l ↔ l = k) ∧ SameClosure lone twins "a" := by
  have hp : Plan.ofSources lone = .ok lonePlan := by cbv
  have hp' : Plan.ofSources twins = .ok twinsPlan := by cbv
  obtain ⟨k, hk⟩ := Option.isSome_iff_exists.mp
    (show (keyAfter? acceptingBuilder lonePlan firstEvents "a").isSome by decide +kernel)
  obtain ⟨k', hk'⟩ := Option.isSome_iff_exists.mp
    (show (keyAfter? acceptingBuilder twinsPlan firstEvents "a").isSome by decide +kernel)
  have hreported := Reported.of_keyAfter? hp hk
  have hreported' := Reported.of_keyAfter? hp' hk'
  have hmem : (⟨"a", [], []⟩ : Source) ∈ lone := by decide
  have hmem' : (⟨"a", [], []⟩ : Source) ∈ twins := by decide
  have hsame : SameClosure lone twins "a" :=
    .same hmem hmem' rfl rfl (fun _ => Iff.rfl) fun d hd => by cases hd
  have hkeys := reported_keys hreported hreported'
  obtain rfl := hkeys.2.1 hsame rfl
  have hfree : CollisionFree fun x => Hashed lone acceptingBuilder.environment x ∨
      Hashed twins acceptingBuilder.environment x :=
    .of_bare fun x hx => hx.elim (Hashed.eq_of_bare (by decide)) (Hashed.eq_of_bare (by decide))
  have hback := hkeys.2.2 hfree (by decide +kernel)
    (by decide +kernel) countable_environment countable_environment rfl
  exact ⟨k, hreported, hreported', hkeys.1, hback.2⟩

end Build
end BuildCache
