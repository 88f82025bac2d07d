import Mathlib.Data.List.Nodup
import Mathlib.Logic.Relation
import BuildCache.Graph.Reach

/-! # Accepted unit lists: the graph holds the units as given, and its edges are the declared ones -/
namespace BuildCache.Graph

def Needs (g : Graph) (unit dependency : String) : Prop := (unit, dependency) ∈ g.edges

/-- Every chain of needs ends. -/
def Acyclic (g : Graph) : Prop := WellFounded fun dependency unit => g.Needs unit dependency

/-- The edges are what the units declare. -/
def Declares (g : Graph) : Prop := ∀ s ∈ g.sources, ∀ d, g.Needs s.name d ↔ d ∈ s.dependencies

theorem addSource_ok {g h : Graph} {s : Source} (ha : g.addSource s = .ok h) :
    h.sources = g.sources ++ [s] ∧ h.edges = g.edges := by
  simp only [addSource] at ha
  split at ha
  · cases ha
  · cases ha
    exact ⟨rfl, rfl⟩

theorem addSources_ok {sources : List Source} {g h : Graph} (ha : g.addSources sources = .ok h) :
    h.sources = g.sources ++ sources ∧ h.edges = g.edges := by
  simp only [addSources] at ha
  induction sources generalizing g with
  | nil =>
    cases ha
    simp
  | cons s sources ih =>
    rw [List.foldlM_cons] at ha
    cases hs : g.addSource s with
    | error e =>
      rw [hs] at ha
      cases ha
    | ok g' =>
      rw [hs] at ha
      have ⟨hsources, hedges⟩ := addSource_ok hs
      have ⟨hsources', hedges'⟩ := ih ha
      exact ⟨by rw [hsources', hsources, List.append_assoc, List.singleton_append], hedges'.trans hedges⟩

theorem addEdge_ok {g h : Graph} {unit dependency : String} (ha : g.addEdge unit dependency = .ok h) :
    h.sources = g.sources ∧ ∀ e, e ∈ h.edges ↔ e ∈ g.edges ∨ e = (unit, dependency) := by
  simp only [addEdge] at ha
  split at ha
  · split at ha
    · split at ha
      · next he =>
        cases ha
        refine ⟨rfl, fun e => ⟨.inl, ?_⟩⟩
        rintro (h | rfl)
        · exact h
        · exact he
      · cases ha
        exact ⟨rfl, fun e => by simp⟩
    · cases ha
  · cases ha

theorem addEdges_ok {edges : List (String × String)} {g h : Graph} (ha : g.addEdges edges = .ok h) :
    h.sources = g.sources ∧ ∀ e, e ∈ h.edges ↔ e ∈ g.edges ∨ e ∈ edges := by
  simp only [addEdges] at ha
  induction edges generalizing g with
  | nil =>
    cases ha
    simp
  | cons e edges ih =>
    rw [List.foldlM_cons] at ha
    cases he : g.addEdge e.1 e.2 with
    | error _ =>
      rw [he] at ha
      cases ha
    | ok g' =>
      rw [he] at ha
      have ⟨hsources, hedges⟩ := addEdge_ok he
      have ⟨hsources', hedges'⟩ := ih ha
      refine ⟨hsources'.trans hsources, fun a => ?_⟩
      rw [hedges', hedges, List.mem_cons, or_assoc]

theorem mem_declared {sources : List Source} {unit dependency : String} :
    (unit, dependency) ∈ declared sources ↔ ∃ s ∈ sources, s.name = unit ∧
      dependency ∈ s.dependencies := by
  simp only [declared, List.mem_flatMap, List.mem_map, Prod.mk.injEq]
  constructor
  · rintro ⟨s, hs, d, hd, rfl, rfl⟩
    exact ⟨s, hs, rfl, hd⟩
  · rintro ⟨s, hs, rfl, hd⟩
    exact ⟨s, hs, dependency, hd, rfl, rfl⟩

theorem eq_of_name_eq (g : Graph) {s t : Source} (hs : s ∈ g.sources) (ht : t ∈ g.sources)
    (h : s.name = t.name) :
    s = t := List.inj_on_of_nodup_map g.names_nodup hs ht h

theorem find?_eq_some {g : Graph} {n : String} {s : Source} : g.find? n = some s ↔ s ∈ g.sources ∧
    s.name = n := by
  constructor
  · intro h
    exact ⟨List.mem_of_find?_eq_some h, by simpa using List.find?_some h⟩
  · rintro ⟨hs, rfl⟩
    cases hf : g.find? s.name with
    | none =>
      have := List.find?_eq_none.mp hf s hs
      simp at this
    | some t =>
      have ht : t ∈ g.sources := List.mem_of_find?_eq_some hf
      have hn : t.name = s.name := by simpa using List.find?_some hf
      rw [g.eq_of_name_eq ht hs hn]

theorem exists_find? {g : Graph} {n : String} (h : n ∈ g.names) : ∃ s, g.find? n = some s ∧
    s.name = n := by
  obtain ⟨s, hs, rfl⟩ := List.mem_map.mp h
  exact ⟨s, find?_eq_some.mpr ⟨hs, rfl⟩, rfl⟩

theorem mem_names_of_find? {g : Graph} {n : String} {s : Source} (h : g.find? n = some s) :
    n ∈ g.names := by
  obtain ⟨hs, rfl⟩ := find?_eq_some.mp h
  exact List.mem_map_of_mem hs

theorem Needs.left_mem {g : Graph} {u d : String} (h : g.Needs u d) : u ∈ g.names := (g.edges_known _ h).1
theorem Needs.right_mem {g : Graph} {u d : String} (h : g.Needs u d) : d ∈ g.names :=
    (g.edges_known _ h).2

theorem ofSources_ok {sources : List Source} {g : Graph} (h : ofSources sources = .ok g) :
    g.sources = sources ∧ g.Declares := by
  simp only [ofSources] at h
  cases ha : addSources empty sources with
  | error e =>
    rw [ha] at h
    cases h
  | ok g' =>
    rw [ha] at h
    have ⟨hs, he⟩ := addSources_ok ha
    have ⟨hs', he'⟩ := addEdges_ok h
    have hg : g.sources = sources := by rw [hs', hs]; rfl
    refine ⟨hg, fun s hmem d => ?_⟩
    have hne : (s.name, d) ∉ empty.edges := List.not_mem_nil
    rw [Needs, he', he, or_iff_right hne, mem_declared]
    constructor
    · rintro ⟨t, ht, hn, hd⟩
      rw [← hg] at ht
      rwa [g.eq_of_name_eq ht hmem hn] at hd
    · exact fun hd => ⟨s, hg ▸ hmem, rfl, hd⟩

end BuildCache.Graph
