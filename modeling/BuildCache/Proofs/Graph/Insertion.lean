import BuildCache.Proofs.Graph.Accepted
import BuildCache.Proofs.Graph.Numbered
import BuildCache.Proofs.NameMap

/-! # Insertion order: graphs with the same units and edges have the same cycle and the same build order -/
namespace BuildCache.Graph

variable {g h : Graph} {sources others : List Source}

/-- Two graphs have units of the same names and the same edges, in whichever order these were added. -/
structure Alike (g h : Graph) : Prop where
  names : ∀ n, n ∈ g.names ↔ n ∈ h.names
  needs : ∀ u d, g.Needs u d ↔ h.Needs u d

namespace Alike

theorem table {n : Nat} {t : Table n} (ha : g.Alike h) (ht : t.Of g) : t.Of h where
  injective := ht.injective
  names u := by rw [← ha.names, ht.names]
  once := ht.once
  edges i j := by rw [ht.edges, ha.needs]

theorem cycle?_eq (ha : g.Alike h) : g.cycle? = h.cycle? := by
  obtain ⟨t, ht⟩ := Table.exists_of g
  exact ht.finds_cycle?.unique (ha.table ht).finds_cycle?

theorem size_eq (ha : g.Alike h) : g.size = h.size := by
  have hperm : g.names.Perm h.names := (List.perm_ext_iff_of_nodup g.names_nodup h.names_nodup).mpr ha.names
  rw [size, size, ← g.sources.length_map, ← h.sources.length_map]
  exact hperm.length_eq

theorem edges_perm (ha : g.Alike h) : g.edges.Perm h.edges :=
  (List.perm_ext_iff_of_nodup g.edges_nodup h.edges_nodup).mpr fun e => ha.needs e.1 e.2

theorem dependents_eq (ha : g.Alike h) (d : String) : g.dependents d = h.dependents d := by
  have hnodup : ∀ f : Graph, ((f.edges.filter (·.2 = d)).map (·.1)).Nodup := fun f =>
    (List.mergeSort_perm _ _).nodup_iff.mp (f.nodup_dependents d)
  exact sortNames_congr (hnodup g) (hnodup h) fun _ => ((ha.edges_perm.filter _).map _).mem_iff

theorem countdown_eq (ha : g.Alike h) : g.countdown = h.countdown := by
  refine NameMap.ext_find? fun n => ?_
  rw [countdown, countdown, NameMap.find?_ofList_map, NameMap.find?_ofList_map,
    (ha.edges_perm.filter _).length_eq]
  simp only [ha.names]

theorem placeReady_eq (ha : g.Alike h) (fuel : Nat) (c : Countdown) (ready : List String) :
    g.placeReady fuel c ready = h.placeReady fuel c ready := by
  induction fuel generalizing c ready with
  | zero => rfl
  | succ fuel ih =>
    cases ready with
    | nil => rfl
    | cons n ready =>
      simp only [placeReady, ha.dependents_eq]
      rw [ih]

theorem order_eq (ha : g.Alike h) : g.order = h.order := by
  have hready : ∀ c : Countdown, sortNames (g.names.filter fun n => c.find? n = some 0)
      = sortNames (h.names.filter fun n => c.find? n = some 0) := fun c =>
    sortNames_congr (g.names_nodup.filter _) (h.names_nodup.filter _) fun n => by
      rw [List.mem_filter, List.mem_filter, ha.names]
  simp only [order, ha.cycle?_eq, ha.countdown_eq, ha.size_eq, hready, ha.placeReady_eq]

end Alike

/-- A unit under the same name that declares the same dependencies, in any order and repetition. -/
def Redeclares (s t : Source) : Prop := t.name = s.name ∧ ∀ d, d ∈ t.dependencies ↔ d ∈ s.dependencies

/-- The units of a list in another order, each with its dependencies in any order and repetition. -/
def Shuffled (sources others : List Source) : Prop :=
  ∃ moved, sources.Perm moved ∧ List.Forall₂ Redeclares moved others

theorem names_of_redeclares (h : List.Forall₂ Redeclares sources others) :
    others.map (·.name) = sources.map (·.name) := by
  induction h with
  | nil => rfl
  | cons hst _ ih => rw [List.map_cons, List.map_cons, hst.1, ih]

theorem declares_of_redeclares (h : List.Forall₂ Redeclares sources others) (u d : String) :
    (∃ s ∈ others, s.name = u ∧ d ∈ s.dependencies) ↔ ∃ s ∈ sources, s.name = u ∧ d ∈ s.dependencies := by
  induction h with
  | nil => simp
  | cons hst _ ih =>
    simp only [List.mem_cons, or_and_right, exists_or, exists_eq_left, hst.1, hst.2]
    rw [ih]

/-- Shuffled units are accepted if the units are, and their graph is alike. -/
theorem Shuffled.exists_alike (hs : Shuffled sources others) (hg : ofSources sources = .ok g) :
    ∃ h, ofSources others = .ok h ∧ g.Alike h := by
  obtain ⟨moved, hperm, hsame⟩ := hs
  have hholds := holds_ofSources hg
  have hnames : g.names.Perm (others.map (·.name)) := by
    rw [hholds.names, names_of_redeclares hsame]
    exact hperm.map _
  have hedges : ∀ u d, (∃ s ∈ others, s.name = u ∧ d ∈ s.dependencies) ↔ (u, d) ∈ g.edges := fun u d => by
    rw [declares_of_redeclares hsame, hholds.edges]
    simp only [hperm.mem_iff]
  have hknown : ∀ s ∈ others, ∀ d ∈ s.dependencies, ¬Unknown others d := fun s hs d hd => by
    have hneeds : g.Needs s.name d := (hedges _ d).mp ⟨s, hs, rfl, hd⟩
    exact not_not.mpr (hnames.mem_iff.mp hneeds.right_mem)
  obtain ⟨h, hh⟩ := exists_ofSources (hnames.nodup_iff.mp g.names_nodup) hknown
  have hholds' := holds_ofSources hh
  refine ⟨h, hh, fun n => ?_, fun u d => ?_⟩
  · rw [hholds'.names, hnames.mem_iff]
  · rw [Needs, Needs, ← hedges, hholds'.edges]

/-- The cycle that is reported depends on the units' names and on the edges alone: it is that of every
graph with the same ones, and the one that the search finds whichever numbers the units have and in
whichever order the edges are listed. So the build order, or the cycle in its place, is that of every
list with the units in another order and with dependencies in another order or repeated. -/
theorem ignores_insertion (g : Graph) :
    (∀ h, g.Alike h → h.cycle? = g.cycle? ∧ h.order = g.order) ∧
    (∀ n (t : Table n), t.Of g → t.Finds g.cycle? ∧ ∀ cycle, t.Finds cycle → cycle = g.cycle?) ∧
    ∀ sources, ofSources sources = .ok g → ∀ others, Shuffled sources others →
      ∃ h, ofSources others = .ok h ∧ h.order = g.order := by
  refine ⟨fun h ha => ⟨ha.cycle?_eq.symm, ha.order_eq.symm⟩,
    fun n t ht => ⟨ht.finds_cycle?, fun cycle hfinds => hfinds.unique ht.finds_cycle?⟩,
    fun sources hg others hs => ?_⟩
  obtain ⟨h, hh, ha⟩ := hs.exists_alike hg
  exact ⟨h, hh, ha.order_eq.symm⟩

def tangled : List Source := [⟨"y", [], ["z"]⟩, ⟨"z", [], ["y"]⟩, ⟨"b", [], ["a", "y"]⟩, ⟨"a", [], ["b"]⟩]

theorem ignores_insertion_tangled :
    ∃ h, ofSources [⟨"a", [], ["b", "b"]⟩, ⟨"z", [], ["y"]⟩, ⟨"b", [], ["y", "a"]⟩, ⟨"y", [], ["z"]⟩] = .ok h ∧
      h.order = .error (.cyclicDependency ["a", "b", "a"]) := by
  have hg : ∃ g, ofSources tangled = .ok g ∧ g.order = .error (.cyclicDependency ["a", "b", "a"]) :=
    ⟨_, rfl, by cbv⟩
  obtain ⟨g, hg, horder⟩ := hg
  have hshuffled : Shuffled tangled
      [⟨"a", [], ["b", "b"]⟩, ⟨"z", [], ["y"]⟩, ⟨"b", [], ["y", "a"]⟩, ⟨"y", [], ["z"]⟩] := by
    refine ⟨[⟨"a", [], ["b"]⟩, ⟨"z", [], ["y"]⟩, ⟨"b", [], ["a", "y"]⟩, ⟨"y", [], ["z"]⟩], by decide, ?_⟩
    simp [Redeclares, or_comm]
  rw [← horder]
  exact (ignores_insertion g).2.2 tangled hg _ hshuffled

end BuildCache.Graph
