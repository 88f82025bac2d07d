import BuildCache.Proofs.Build.Keys

/-! # Verdicts: what becomes of each unit without any cache -/
namespace BuildCache

/-- Compiles a unit from its content and the payloads of its direct dependencies alone, to bytes or a message. -/
abbrev PayloadCompiler := Bytes → NameMap Bytes → Except String Bytes

def Artifact.payloads (artifacts : NameMap Artifact) : NameMap Bytes :=
  .ofList (artifacts.entries.map fun e => (e.1, e.2.data))

def Compilation.ofExcept : Except String Bytes → Compilation
  | .ok data => .output data
  | .error message => .rejected message

theorem Compilation.ofExcept_eq_output {r : Except String Bytes} {data : Bytes} :
    ofExcept r = .output data ↔ r = .ok data := by
  cases r <;> simp [ofExcept]

theorem Compilation.ofExcept_eq_rejected {r : Except String Bytes} {message : String} :
    ofExcept r = .rejected message ↔ r = .error message := by
  cases r <;> simp [ofExcept]

theorem Compilation.ofExcept_ne_crashed (r : Except String Bytes) : ofExcept r ≠ .crashed := by
  cases r <;> nofun

def Compiler.ofPayloads (compile : PayloadCompiler) : Compiler := fun s artifacts =>
  .ofExcept (compile s.content (Artifact.payloads artifacts))

theorem Source.nodup_distinctDependencies (s : Source) : s.distinctDependencies.Nodup :=
    nodup_distinct _ _

inductive Verdict
  | built (data : Bytes)
  | failed (message : String)
  /-- Something that the unit depends on failed. -/
  | skipped
  deriving DecidableEq

namespace Verdict

def data? : Verdict → Option Bytes
  | built data => some data
  | failed _ | skipped => none

def ofExcept : Except String Bytes → Verdict
  | .ok data => built data
  | .error message => failed message

def payloads (dependencies : List (String × Verdict)) : NameMap Bytes :=
  .ofList (dependencies.filterMap fun d => d.2.data?.map (d.1, ·))

/-- The verdict on a unit, given those on its dependencies. -/
def judge (compile : PayloadCompiler) (s : Source) (dependencies : List (String × Verdict)) : Verdict :=
  if dependencies.all (·.2.data?.isSome) then ofExcept (compile s.content (payloads dependencies))
  else skipped

theorem ofExcept_ne_skipped (r : Except String Bytes) : ofExcept r ≠ skipped := by
  cases r <;> nofun

theorem data?_eq_some {v : Verdict} {data : Bytes} : v.data? = some data ↔ v = built data := by
  cases v <;> simp [data?]

theorem data?_isSome {v : Verdict} : v.data?.isSome = true ↔ (∀ m, v ≠ failed m) ∧ v ≠ skipped := by
  cases v <;> simp [data?]

theorem find?_payloads {dependencies : List (String × Verdict)}
    (hn : (dependencies.map (·.1)).Nodup) {n : String}
    {data : Bytes} : (payloads dependencies).find? n = some data ↔ (n, built data) ∈ dependencies := by
  have hsub : ((dependencies.filterMap fun d => d.2.data?.map (d.1, ·)).map (·.1)).Sublist
    (dependencies.map (·.1)) := by
    induction dependencies with
    | nil => exact .slnil
    | cons d rest ih =>
      have ih := ih (List.nodup_cons.mp hn).2
      cases hd : d.2.data? with
      | none => simpa [hd] using ih.cons d.1
      | some x => simpa [hd] using ih.cons_cons d.1
  rw [payloads, NameMap.find?_ofList (hsub.nodup hn), List.mem_filterMap]
  constructor
  · rintro ⟨⟨m, v⟩, hd, h⟩
    obtain ⟨x, hx, he⟩ := Option.map_eq_some_iff.mp h
    cases he
    exact data?_eq_some.mp hx ▸ hd
  · exact fun h => ⟨_, h, rfl⟩

theorem judge_congr (compile : PayloadCompiler) {s t : Source} {ds es : List (String × Verdict)}
    (hcontent : s.content = t.content) (hd : (ds.map (·.1)).Nodup) (he : (es.map (·.1)).Nodup)
    (h : ∀ d, d ∈ ds ↔ d ∈ es) : judge compile s ds = judge compile t es := by
  have hpayloads : payloads ds = payloads es := by
    refine NameMap.ext_find? fun n => Option.ext fun data => ?_
    rw [find?_payloads hd, find?_payloads he, h]
  have hall : ds.all (·.2.data?.isSome) = es.all (·.2.data?.isSome) := by
    rw [Bool.eq_iff_iff, List.all_eq_true, List.all_eq_true]
    exact forall_congr' fun d => by rw [h d]
  rw [judge, judge, hpayloads, hall, hcontent]

/-- The payloads of dependencies that were all built are those of their artifacts. -/
theorem payloads_select {verdicts : NameMap Verdict} {artifacts : NameMap Artifact} {names : List String}
    (hn : names.Nodup)
    (h : ∀ d ∈ names, ∃ a, artifacts.find? d = some a ∧ verdicts.find? d = some (built a.data)) :
    payloads (verdicts.select names)
      = .ofList ((NameMap.ofList (artifacts.select names)).entries.map fun e => (e.1, e.2.data)) := by
  have hverdicts : ((verdicts.select names).map (·.1)).Nodup := (verdicts.sublist_select names).nodup hn
  have hartifacts : ((artifacts.select names).map (·.1)).Nodup := (artifacts.sublist_select names).nodup hn
  have hentries : (((NameMap.ofList (artifacts.select names)).entries.map
      fun e => (e.1, e.2.data)).map (·.1)).Nodup := by
    rw [List.map_map]
    exact NameMap.nodup_names _
  refine NameMap.ext_find? fun d => Option.ext fun data => ?_
  rw [find?_payloads hverdicts, NameMap.find?_ofList hentries, NameMap.mem_select, List.mem_map]
  constructor
  · rintro ⟨hd, hv⟩
    obtain ⟨a, ha, hv'⟩ := h d hd
    rw [hv', Option.some.injEq, built.injEq] at hv
    refine ⟨(d, a), ?_, by rw [hv]⟩
    rw [← NameMap.find?_eq_some, NameMap.find?_ofList hartifacts, NameMap.mem_select]
    exact ⟨hd, ha⟩
  · rintro ⟨⟨e, a⟩, he, hdata⟩
    obtain ⟨rfl, rfl⟩ := Prod.mk.inj hdata
    rw [← NameMap.find?_eq_some, NameMap.find?_ofList hartifacts, NameMap.mem_select] at he
    obtain ⟨a', ha', hv⟩ := h e he.1
    rw [he.2, Option.some.injEq] at ha'
    exact ⟨he.1, by rw [hv, ha']⟩

theorem judge_eq_skipped {compile : PayloadCompiler} {s : Source}
    {dependencies : List (String × Verdict)} :
    judge compile s dependencies = skipped ↔
      ∃ d ∈ dependencies, (∃ m, d.2 = failed m) ∨ d.2 = skipped := by
  simp only [judge]
  split
  · next hall =>
    rw [List.all_eq_true] at hall
    constructor
    · exact fun h => absurd h (ofExcept_ne_skipped _)
    · rintro ⟨d, hd, ⟨m, hm⟩ | hs⟩
      · exact absurd hm ((data?_isSome.mp (hall d hd)).1 m)
      · exact absurd hs (data?_isSome.mp (hall d hd)).2
  · next hall =>
    simp only [List.all_eq_true, not_forall] at hall
    obtain ⟨d, hd, hnone⟩ := hall
    refine ⟨fun _ => ⟨d, hd, ?_⟩, fun _ => rfl⟩
    cases hv : d.2 with
    | built data => exact absurd (by rw [hv]; rfl) hnone
    | failed m => exact .inl ⟨m, rfl⟩
    | skipped => exact .inr rfl

end Verdict

namespace Plan

variable {p : Plan} {env : Environment} {compile : PayloadCompiler} {n m : String} {k : CacheKey}

def verdicts (p : Plan) (compile : PayloadCompiler) : NameMap Verdict :=
    p.evaluate (Verdict.judge compile)

theorem Valid.verdict_eq (hp : p.Valid) {s : Source} (hs : p.graph.find? n = some s) :
    (p.verdicts compile).find? n
      = some (Verdict.judge compile s ((p.verdicts compile).select s.distinctDependencies)) :=
        evaluate_eq hp hs

/-- Skipped is what depends, at any distance, on a unit that fails, and nothing else. -/
theorem Valid.verdict_skipped_iff (hp : p.Valid) (hn : n ∈ p.graph.names) :
    (p.verdicts compile).find? n = some .skipped ↔
      ∃ d message, p.graph.Reaches n d ∧ (p.verdicts compile).find? d = some (.failed message) := by
  induction n using hp.acyclic.induction with
  | _ n ih =>
    obtain ⟨s, hs, -⟩ := Graph.exists_find? hn
    have hneeds : ∀ d, d ∈ s.distinctDependencies ↔ p.graph.Needs n d := fun d => by
      rw [Source.mem_distinctDependencies, hp.needs_iff hs]
    rw [hp.verdict_eq hs, Option.some.injEq, Verdict.judge_eq_skipped]
    constructor
    · rintro ⟨⟨d, v⟩, hd, hbad⟩
      obtain ⟨hmem, hfind⟩ := NameMap.mem_select.mp hd
      have hneed : p.graph.Needs n d := (hneeds d).mp hmem
      rcases hbad with ⟨message, rfl⟩ | rfl
      · exact ⟨d, message, .single hneed, hfind⟩
      · obtain ⟨e, message, hde, he⟩ := (ih d hneed hneed.right_mem).mp hfind
        exact ⟨e, message, .head hneed hde, he⟩
    · rintro ⟨e, message, hreach, he⟩
      obtain ⟨d, hneed, hde⟩ := Relation.TransGen.head'_iff.mp hreach
      have hmem : ∀ v, (p.verdicts compile).find? d = some v →
          (d, v) ∈ (p.verdicts compile).select s.distinctDependencies := fun v hv =>
        NameMap.mem_select.mpr ⟨(hneeds d).mpr hneed, hv⟩
      rcases Relation.reflTransGen_iff_eq_or_transGen.mp hde with rfl | hde
      · exact ⟨_, hmem _ he, .inl ⟨message, rfl⟩⟩
      · exact ⟨_, hmem _ ((ih d hneed hneed.right_mem).mpr ⟨e, message, hde, he⟩), .inr rfl⟩

theorem Valid.verdict_congr (hp : p.Valid) (hfree : CollisionFree (Hashed p.graph.sources env))
    (hsize : Countable p.graph.sources) (henv : env.Countable) {s t : Source} (hs : s ∈ p.graph.sources)
    (ht : t ∈ p.graph.sources) (hk : (p.keys env).find? s.name = (p.keys env).find? t.name) :
    (p.verdicts compile).find? s.name = (p.verdicts compile).find? t.name := by
  have hs' : p.graph.find? s.name = some s := Graph.find?_eq_some.mpr ⟨hs, rfl⟩
  have ht' : p.graph.find? t.name = some t := Graph.find?_eq_some.mpr ⟨ht, rfl⟩
  obtain ⟨k, hks⟩ : ∃ k, (p.keys env).find? s.name = some k := ⟨_, evaluate_eq hp hs'⟩
  -- equal keys come from equal preimages, and these tell the content and the dependencies
  obtain ⟨hcontent, hmem⟩ := MerkleKey.alike p.graph.names_nodup hfree hsize henv hs ht
    (hp.merkleKey env (List.mem_map_of_mem hs) hks)
    (hp.merkleKey env (List.mem_map_of_mem ht) (hk.symm.trans hks))
  have hnodup : ∀ {u : Source}, p.graph.find? u.name = some u →
      (((p.verdicts compile).select u.distinctDependencies).map (·.1)).Nodup := fun hu => by
    rw [verdicts, map_fst_evaluate hp hu]
    exact Source.nodup_distinctDependencies _
  rw [hp.verdict_eq hs', hp.verdict_eq ht', Verdict.judge_congr compile hcontent
    (hnodup hs') (hnodup ht')]
  intro d
  rw [NameMap.mem_select, NameMap.mem_select, Source.mem_distinctDependencies,
    Source.mem_distinctDependencies, hmem]

end Plan
end BuildCache
