import BuildCache.Build.Flight
import BuildCache.Graph.Reach

/-! # The board of a build: which units wait, are ready, were taken up and have a result -/
namespace BuildCache

structure Board where
  pending : Countdown
  /-- Units whose dependencies all have a result, and that were not taken up yet. -/
  ready : List String
  /-- Units that were released or skipped, in this order. -/
  taken : List String
  keys : NameMap CacheKey
  artifacts : NameMap Artifact
  /-- Why units cannot be built. -/
  causes : NameMap String
  /-- Results in the order in which they came. -/
  results : List UnitResult

namespace Board

def initial (p : Plan) : Board where
  pending := p.graph.countdown
  ready := p.order.filter fun n => p.graph.countdown.find? n = some 0
  taken := []
  keys := .empty
  artifacts := .empty
  causes := .empty
  results := []

/-- The ready unit that comes first in the order. -/
def next? (p : Plan) (b : Board) : Option String := p.order.find? (· ∈ b.ready)

def take (b : Board) (name : String) : Board :=
  { b with ready := b.ready.erase name, taken := b.taken ++ [name] }

def dependencyKeys (b : Board) (s : Source) : List (String × CacheKey) :=
  s.distinctDependencies.filterMap fun d => (b.keys.find? d).map (d, ·)

def dependencyArtifacts (b : Board) (s : Source) : NameMap Artifact :=
  .ofList (s.distinctDependencies.filterMap fun d => (b.artifacts.find? d).map (d, ·))

def keyOf (b : Board) (env : Environment) (s : Source) : CacheKey :=
  Derivation.key ⟨s.hash, b.dependencyKeys s, env⟩

/-- Notes a result and makes those dependents ready that waited for it alone. -/
def record (p : Plan) (b : Board) (r : UnitResult) : Board :=
  let (pending, freed) := b.pending.release (p.graph.dependents r.name)
  { b with pending, ready := b.ready ++ freed, results := b.results ++ [r] }

/-- Notes a cause unless there is an earlier one. -/
def blame (cause : String) (causes : NameMap String) (name : String) : NameMap String :=
  if causes.contains name then causes else causes.insert name cause

/-- Keeps the artifact of a unit that ended, or else blames the unit for all that depends on it. -/
def conclude (p : Plan) (b : Board) (name : String) (e : Ending) : Board :=
  match e.artifact? with
  | some a => { b with artifacts := b.artifacts.insert name a }
  | none => { b with causes := (p.graph.transitiveDependents name).foldl (blame (e.cause name)) b.causes }

def isRecorded (b : Board) (name : String) : Bool := b.results.any (·.name = name)

/-- The units without a result are reported as cancelled. -/
def close (p : Plan) (b : Board) : Board :=
  { b with results := b.results
      ++ (p.order.filter fun n => !b.isRecorded n).map fun n => .cancelled n (b.keys.find? n) }

end Board
end BuildCache
