import BuildCache.Graph.Basic

/-! # Transitive dependents: all units that reach a unit along one edge or more -/
namespace BuildCache.Graph

/-- The units among these that depend directly on a unit. -/
def above (g : Graph) (unit : String) (units : List String) : List String :=
  let dependents := g.dependents unit
  units.filter (· ∈ dependents)

def notAbove (g : Graph) (unit : String) (units : List String) : List String :=
  let dependents := g.dependents unit
  units.filter (· ∉ dependents)

theorem length_above_add (g : Graph) (unit : String) (units : List String) :
    (g.above unit units).length + (g.notAbove unit units).length = units.length := by
  induction units with
  | nil => rfl
  | cons n units ih =>
    unfold above notAbove at ih ⊢
    by_cases h : n ∈ g.dependents unit <;> simp_all <;> omega

/-- The unmarked units found from a list of units to expand; `rest` holds the unmarked ones. -/
def reached (g : Graph) (rest : List String) : (todo : List String) → List String
  | [] => []
  | n :: todo => g.above n rest ++ reached g (g.notAbove n rest) (g.above n rest ++ todo)
termination_by todo => 2 * rest.length + todo.length
decreasing_by
  have := g.length_above_add n rest
  simp only [List.length_append, List.length_cons]
  omega

/-- Every unit that depends on a unit, directly or not, by name. -/
def transitiveDependents (g : Graph) (name : String) : List String :=
  if name ∈ g.names then sortNames (g.reached g.names [name]) else []

end BuildCache.Graph
