import BuildCache.Build.Basic
import BuildCache.Proofs.Graph.Order
import BuildCache.Proofs.Graph.Reach

/-! # Plans: values of units that are computed from those of their dependencies -/
namespace BuildCache

namespace NameMap

variable {α : Type}

/-- The bindings of some names, in the order of the names. -/
def select (m : NameMap α) (names : List String) : List (String × α) :=
  names.filterMap fun n => (m.find? n).map (n, ·)

@[simp] theorem mem_select {m : NameMap α} {names : List String} {e : String × α} :
    e ∈ m.select names ↔ e.1 ∈ names ∧ m.find? e.1 = some e.2 := by
  simp only [select, List.mem_filterMap, Option.map_eq_some_iff]
  constructor
  · rintro ⟨n, hn, a, ha, rfl⟩
    exact ⟨hn, ha⟩
  · rintro ⟨hn, ha⟩
    exact ⟨e.1, hn, e.2, ha, rfl⟩

theorem map_fst_select {m : NameMap α} {names : List String} (h : ∀ n ∈ names, ∃ a, m.find? n = some a) :
    (m.select names).map (·.1) = names := by
  induction names with
  | nil => rfl
  | cons n names ih =>
    obtain ⟨a, ha⟩ := h n List.mem_cons_self
    have := ih fun n hn => h n (List.mem_cons_of_mem _ hn)
    simp only [select, List.filterMap_cons, ha, Option.map_some, List.map_cons] at this ⊢
    rw [this]

theorem select_congr {m m' : NameMap α} {names : List String} (h : ∀ n ∈ names, m.find? n = m'.find? n) :
    m.select names = m'.select names := by
  apply List.filterMap_congr
  intro n hn
  rw [h n hn]

theorem sublist_select (m : NameMap α) (names : List String) :
    ((m.select names).map (·.1)).Sublist names := by
  induction names with
  | nil => exact .slnil
  | cons n names ih =>
    cases h : m.find? n with
    | none => simpa [select, h] using ih.cons n
    | some a => simpa [select, h] using ih.cons_cons n

end NameMap

/-- Whether one of some units declares another as its dependency. -/
def DependsOn (sources : List Source) (unit dependency : String) : Prop :=
  ∃ s ∈ sources, s.name = unit ∧ dependency ∈ s.dependencies

namespace Plan

/-- What an accepted list of units promises. -/
structure Valid (p : Plan) : Prop where
  acyclic : p.graph.Acyclic
  perm : p.order.Perm p.graph.names
  ordered : p.graph.Ordered [] p.order
  declares : p.graph.Declares

theorem ofSources_ok {sources : List Source} {p : Plan} (h : ofSources sources = .ok p) :
    p.Valid ∧ p.graph.sources = sources := by
  simp only [ofSources] at h
  cases hg : Graph.ofSources sources with
  | error e =>
    rw [hg] at h
    cases h
  | ok g =>
    rw [hg] at h
    simp only [bind, Except.bind] at h
    cases ho : g.order with
    | error e =>
      rw [ho] at h
      cases h
    | ok order =>
      rw [ho] at h
      cases h
      obtain ⟨hs, hd⟩ := Graph.ofSources_ok hg
      obtain ⟨ha, hp, hord⟩ := Graph.order_ok ho
      exact ⟨⟨ha, hp, hord, hd⟩, hs⟩

variable {p : Plan}

theorem Valid.nodup (h : p.Valid) : p.order.Nodup := h.perm.nodup_iff.mpr p.graph.names_nodup

theorem Valid.mem_order (h : p.Valid) {n : String} : n ∈ p.order ↔ n ∈ p.graph.names := h.perm.mem_iff

theorem Valid.needs_iff (h : p.Valid) {n d : String} {s : Source} (hs : p.graph.find? n = some s) :
    p.graph.Needs n d ↔ d ∈ s.dependencies := by
  obtain ⟨hmem, rfl⟩ := Graph.find?_eq_some.mp hs
  exact h.declares s hmem d

theorem Valid.needs_eq (h : p.Valid) : p.graph.Needs = DependsOn p.graph.sources := by
  funext n d
  refine propext ⟨fun hn => ?_, fun hn => ?_⟩
  · obtain ⟨s, hs, rfl⟩ := Graph.exists_find? hn.left_mem
    exact ⟨s, (Graph.find?_eq_some.mp hs).1, rfl, (h.needs_iff hs).mp hn⟩
  · obtain ⟨s, hs, rfl, hd⟩ := hn
    exact (h.declares s hs d).mpr hd

section

variable {α : Type} (f : Source → List (String × α) → α)

/-- Adds the value of one unit to those of the units before it. -/
def evaluateNext (p : Plan) (m : NameMap α) (n : String) : NameMap α :=
  match p.graph.find? n with
  | none => m
  | some s => m.insert n (f s (m.select s.distinctDependencies))

/-- The values of all units, each computed from the unit and the values of its distinct dependencies. -/
def evaluate (p : Plan) : NameMap α := p.order.foldl (evaluateNext f p) .empty

private structure Evaluated (p : Plan) (m : NameMap α) (done : List String) : Prop where
  closed : ∀ n ∈ done, ∀ d, p.graph.Needs n d → d ∈ done
  known : ∀ n ∈ done, ∃ a, m.find? n = some a
  value : ∀ n ∈ done, ∀ s, p.graph.find? n = some s →
    m.find? n = some (f s (m.select s.distinctDependencies))

variable {f}

private theorem Evaluated.next (hp : p.Valid) {m : NameMap α} {done : List String}
    (h : Evaluated f p m done)
    {n : String} (hn : n ∈ p.graph.names) (hnot : n ∉ done) (hneeds : ∀ d, p.graph.Needs n d → d ∈ done) :
    Evaluated f p (evaluateNext f p m n) (done ++ [n]) := by
  obtain ⟨t, ht, -⟩ := Graph.exists_find? hn
  have hnext : evaluateNext f p m n = m.insert n (f t (m.select t.distinctDependencies)) := by
    rw [evaluateNext, ht]
  have hold : ∀ d ∈ done, (evaluateNext f p m n).find? d = m.find? d := fun d hd => by
    have hne : n ≠ d := fun e => hnot (e ▸ hd)
    rw [hnext, NameMap.find?_insert, if_neg hne]
  have hsel : ∀ s a, p.graph.find? a = some s → (∀ d, p.graph.Needs a d → d ∈ done) →
      (evaluateNext f p m n).select s.distinctDependencies = m.select s.distinctDependencies :=
        fun s a hs ha => by
    refine NameMap.select_congr fun d hd => hold d (ha d ?_)
    exact (hp.needs_iff hs).mpr (Source.mem_distinctDependencies.mp hd)
  refine ⟨fun a ha d hd => ?_, fun a ha => ?_, fun a ha s hs => ?_⟩
  · rcases List.mem_append.mp ha with ha | ha
    · exact List.mem_append_left _ (h.closed a ha d hd)
    · rw [List.mem_singleton] at ha
      exact List.mem_append_left _ (hneeds d (ha ▸ hd))
  · rcases List.mem_append.mp ha with ha | ha
    · rw [hold a ha]
      exact h.known a ha
    · rw [List.mem_singleton] at ha
      exact ⟨_, by rw [hnext, ha, NameMap.find?_insert, if_pos rfl]⟩
  · rcases List.mem_append.mp ha with ha | ha
    · rw [hold a ha, hsel s a hs (h.closed a ha)]
      exact h.value a ha s hs
    · rw [List.mem_singleton] at ha
      subst ha
      rw [hsel s a hs hneeds, hnext, NameMap.find?_insert, if_pos rfl]
      rw [ht, Option.some.injEq] at hs
      rw [hs]

private theorem Evaluated.fold (hp : p.Valid) {rest done : List String} {m : NameMap α}
    (h : Evaluated f p m done)
    (ho : p.graph.Ordered done rest) (hn : (done ++ rest).Nodup) (hk : ∀ n ∈ rest, n ∈ p.graph.names) :
    Evaluated f p (rest.foldl (evaluateNext f p) m) (done ++ rest) := by
  induction rest generalizing done m with
  | nil => simpa using h
  | cons n rest ih =>
    have hnot : n ∉ done := fun hd => (List.nodup_append.mp hn).2.2 n hd n List.mem_cons_self rfl
    have hnext := h.next hp (hk n List.mem_cons_self) hnot ho.1
    rw [List.append_cons] at hn ⊢
    exact ih hnext ho.2 hn fun a ha => hk a (List.mem_cons_of_mem _ ha)

private theorem evaluated (hp : p.Valid) : Evaluated f p (p.evaluate f) p.order := by
  have h0 : Evaluated f p .empty [] := ⟨by simp, by simp, by simp⟩
  exact h0.fold hp hp.ordered (by simpa using hp.nodup) fun n hn => hp.mem_order.mp hn

theorem exists_evaluate (hp : p.Valid) {n : String} (hn : n ∈ p.graph.names) :
    ∃ a, (p.evaluate f).find? n = some a := (evaluated hp).known n (hp.mem_order.mpr hn)

theorem evaluate_eq (hp : p.Valid) {n : String} {s : Source} (hs : p.graph.find? n = some s) :
    (p.evaluate f).find? n = some (f s ((p.evaluate f).select s.distinctDependencies)) :=
  (evaluated hp).value n (hp.mem_order.mpr (Graph.mem_names_of_find? hs)) s hs

theorem map_fst_evaluate (hp : p.Valid) {n : String} {s : Source} (hs : p.graph.find? n = some s) :
    ((p.evaluate f).select s.distinctDependencies).map (·.1) = s.distinctDependencies := by
  refine NameMap.map_fst_select fun d hd => exists_evaluate hp ?_
  exact ((hp.needs_iff hs).mpr (Source.mem_distinctDependencies.mp hd)).right_mem

end

end Plan
end BuildCache
