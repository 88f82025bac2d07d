import BuildCache.Graph.Cycle
import BuildCache.NameMap

/-! # Build orders: dependencies first, and among the units that are ready the least name -/
namespace BuildCache

/-- For each unit, how many of its dependencies are still to come. -/
abbrev Countdown := NameMap Nat

namespace Countdown

/-- One dependency of a unit has come; the answer tells whether it was the last. -/
def lower (c : Countdown) (unit : String) : Countdown × Bool :=
  match c.find? unit with
  | none | some 0 => (c, false)
  | some (n + 1) => (c.insert unit n, n = 0)

theorem find?_lower (c : Countdown) (unit other : String) :
    (c.lower unit).1.find? other = if unit = other then (c.find? other).map (· - 1) else c.find? other := by
  unfold lower
  split
  · next h => by_cases e : unit = other <;> simp_all
  · next h => by_cases e : unit = other <;> simp_all
  · next n h => by_cases e : unit = other <;> simp_all

/-- One dependency of each unit has come; the units for which it was the last are freed. -/
def release (c : Countdown) : (units : List String) → Countdown × List String
  | [] => (c, [])
  | unit :: rest =>
    let (c, last) := c.lower unit
    let (c, freed) := release c rest
    (c, if last then unit :: freed else freed)

end Countdown

namespace Graph

def countdown (g : Graph) : Countdown :=
  .ofList (g.names.map fun n => (n, (g.edges.filter (·.1 = n)).length))

/-- Puts a name into its place in a sorted list. -/
def placeName (name : String) : List String → List String
  | [] => [name]
  | n :: rest => if name ≤ n then name :: n :: rest else n :: placeName name rest

/-- Places ready units, the least name first, until none is ready; `fuel` is the number of units. -/
def placeReady (g : Graph) : (fuel : Nat) → Countdown → (ready : List String) → List String
  | 0, _, _ => []
  | _, _, [] => []
  | fuel + 1, c, unit :: ready =>
    let (c, freed) := c.release (g.dependents unit)
    unit :: placeReady g fuel c (freed.foldr placeName ready)

/-- The least build order in the order of names, unless there is a cycle. -/
def order (g : Graph) : Except GraphError (List String) :=
  match g.cycle? with
  | some path => .error (.cyclicDependency path)
  | none =>
    let c := g.countdown
    .ok (g.placeReady g.size c (sortNames (g.names.filter fun n => c.find? n = some 0)))

end Graph
end BuildCache
