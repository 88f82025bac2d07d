import BuildCache.Source

/-! # Dependency graphs: units by name, with an edge from each unit to what it depends on -/
namespace BuildCache

inductive GraphError
  | unresolvedDependency (unit dependency : String)
  | cyclicDependency (path : List String)
  | duplicateUnit (name : String)
  deriving DecidableEq

def GraphError.message : GraphError → String
  | .unresolvedDependency unit dependency => s!"unit '{unit}' depends on unknown unit '{dependency}'"
  | .cyclicDependency path => "dependency cycle detected: " ++ " -> ".intercalate path
  | .duplicateUnit name => s!"duplicate unit '{name}'"

structure Graph where
  sources : List Source
  /-- An edge goes from a unit to one that it depends on. -/
  edges : List (String × String)
  names_nodup : (sources.map (·.name)).Nodup
  edges_nodup : edges.Nodup
  edges_known : ∀ e ∈ edges, e.1 ∈ sources.map (·.name) ∧ e.2 ∈ sources.map (·.name)

namespace Graph

def empty : Graph := ⟨[], [], .nil, .nil, nofun⟩

def names (g : Graph) : List String := g.sources.map (·.name)
def size (g : Graph) : Nat := g.sources.length
def find? (g : Graph) (name : String) : Option Source := g.sources.find? (·.name = name)

/-- Adds a unit; what it declares adds no edges. -/
def addSource (g : Graph) (s : Source) : Except GraphError Graph :=
  if h : s.name ∈ g.sources.map (·.name) then .error (.duplicateUnit s.name)
  else .ok {
    sources := g.sources ++ [s]
    edges := g.edges
    names_nodup := by
      rw [List.map_append, List.nodup_append]
      refine ⟨g.names_nodup, by simp, fun a ha b hb => ?_⟩
      simp only [List.map_cons, List.map_nil, List.mem_singleton] at hb
      exact fun e => h (hb ▸ e ▸ ha)
    edges_nodup := g.edges_nodup
    edges_known := fun e he => by
      rw [List.map_append]
      exact ⟨List.mem_append_left _ (g.edges_known e he).1, List.mem_append_left _ (g.edges_known e he).2⟩ }

/-- Records that one unit depends on another; a repeated edge changes nothing. -/
def addEdge (g : Graph) (unit dependency : String) : Except GraphError Graph :=
  if hd : dependency ∈ g.sources.map (·.name) then
    if hu : unit ∈ g.sources.map (·.name) then
      if he : (unit, dependency) ∈ g.edges then .ok g
      else .ok { g with
        edges := g.edges ++ [(unit, dependency)]
        edges_nodup := by
          rw [List.nodup_append]
          refine ⟨g.edges_nodup, by simp, fun a ha b hb e => he ?_⟩
          simp only [List.mem_singleton] at hb
          exact hb ▸ e ▸ ha
        edges_known := fun e h => by
          rcases List.mem_append.mp h with h | h
          · exact g.edges_known e h
          · simp only [List.mem_singleton] at h
            exact h ▸ ⟨hu, hd⟩ }
    else .error (.unresolvedDependency unit unit)
  else .error (.unresolvedDependency unit dependency)

def addSources (g : Graph) (sources : List Source) : Except GraphError Graph := sources.foldlM addSource g

def addEdges (g : Graph) (edges : List (String × String)) : Except GraphError Graph :=
  edges.foldlM (fun g e => g.addEdge e.1 e.2) g

def declared (sources : List Source) : List (String × String) :=
  sources.flatMap fun s => s.dependencies.map (s.name, ·)

/-- The graph of units with their declared dependencies. -/
def ofSources (sources : List Source) : Except GraphError Graph := do
  (← addSources empty sources).addEdges (declared sources)

def sortNames (names : List String) : List String := names.mergeSort fun a b => decide (a ≤ b)

def dependencies? (g : Graph) (name : String) : Option (List String) := (g.find? name).map (·.dependencies)

/-- The units that a unit has edges to, by name. -/
def successors (g : Graph) (name : String) : List String :=
  sortNames ((g.edges.filter (·.1 = name)).map (·.2))

/-- The units that depend directly on a unit, by name. -/
def dependents (g : Graph) (name : String) : List String :=
  sortNames ((g.edges.filter (·.2 = name)).map (·.1))

@[simp] theorem mem_sortNames {names : List String} {n : String} : n ∈ sortNames names ↔ n ∈ names :=
  List.mem_mergeSort

@[simp] theorem mem_successors {g : Graph} {a b : String} : b ∈ g.successors a ↔ (a, b) ∈ g.edges := by
  simp only [successors, mem_sortNames, List.mem_map, List.mem_filter, decide_eq_true_eq]
  exact ⟨fun ⟨e, ⟨he, ha⟩, hb⟩ => by rw [← ha, ← hb]; exact he, fun h => ⟨(a, b), ⟨h, rfl⟩, rfl⟩⟩

@[simp] theorem mem_dependents {g : Graph} {a b : String} : a ∈ g.dependents b ↔ (a, b) ∈ g.edges := by
  simp only [dependents, mem_sortNames, List.mem_map, List.mem_filter, decide_eq_true_eq]
  exact ⟨fun ⟨e, ⟨he, hb⟩, ha⟩ => by rw [← ha, ← hb]; exact he, fun h => ⟨(a, b), ⟨h, rfl⟩, rfl⟩⟩

end Graph
end BuildCache
