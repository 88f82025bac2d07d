import BuildCache.Graph.Basic

/-! # Dependency cycles: a depth-first search in the order of names -/
namespace BuildCache.Graph

/-- The cycle that an edge closes from the top of a path, given top first, back to one of its units. -/
def cycleTo (path : List String) (unit : String) : List String :=
  unit :: (path.takeWhile (· ≠ unit)).reverse ++ [unit]

mutual

/-- Searches below a unit that is on no path yet; answers the finished units, or fails with a cycle.
The depth is the number of units that a path can still take up. -/
def visit (g : Graph) : (depth : Nat) → (path done : List String) → (unit : String) →
    Except (List String) (List String)
  | 0, _, done, _ => .ok done
  | depth + 1, path, done, unit => do
    let done ← visitAll g depth (unit :: path) done (g.successors unit)
    .ok (unit :: done)

def visitAll (g : Graph) (depth : Nat) (path done : List String) :
    (units : List String) → Except (List String) (List String)
  | [] => .ok done
  | unit :: rest =>
    if unit ∈ path then .error (cycleTo path unit)
    else if unit ∈ done then visitAll g depth path done rest
    else do visitAll g depth path (← visit g depth path done unit) rest

end

/-- A cycle with its first unit repeated at the end, if there is one. -/
def cycle? (g : Graph) : Option (List String) :=
  match g.visitAll g.size [] [] (sortNames g.names) with
  | .ok _ => none
  | .error path => some path

end BuildCache.Graph
