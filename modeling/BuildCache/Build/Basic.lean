import BuildCache.Build.Report
import BuildCache.Derivation
import BuildCache.Graph.Order
import BuildCache.Remote.Wait
import BuildCache.Store

/-! # What builds work with: a compiler, two caches and a plan -/
namespace BuildCache

/-- What comes of compiling a unit. -/
inductive Compilation
  | output (data : Bytes)
  | rejected (message : String)
  | crashed
  deriving DecidableEq

/-- What is reported of a compiler that crashed. -/
def Compilation.crashReport (failure : String) : String := "compiler panicked: " ++ failure

/-- Compiles a unit from its content and the artifacts of its direct dependencies. -/
abbrev Compiler := Source → NameMap Artifact → Compilation

structure Builder (σ : Type) where
  compiler : Compiler
  client : Client σ
  environment : Environment
  /-- The most units in flight at a time. -/
  workers : Nat
  workers_pos : 0 < workers

/-- There is always one worker at least. -/
def Builder.of {σ : Type} (compiler : Compiler) (client : Client σ) (environment : Environment) (workers : Nat) :
    Builder σ :=
  ⟨compiler, client, environment, max 1 workers, by omega⟩

/-- The caches of a builder, the local store in front of the remote. -/
structure Caches (σ : Type) where
  store : Store
  remote : Client.State σ
  deriving DecidableEq

/-- A graph with a build order of it. -/
structure Plan where
  graph : Graph
  order : List String

def Plan.ofSources (sources : List Source) : Except GraphError Plan := do
  let graph ← Graph.ofSources sources
  .ok ⟨graph, ← graph.order⟩

/-- The circumstances of a step of work. -/
structure Build.Turn extends Client.Turn where
  now : ClockTime
  /-- How a panic in the step is described. -/
  failure : String
  deriving DecidableEq

/-- The same circumstances at another moment. -/
def Build.Turn.at (turn : Turn) (moment : Nat) : Turn := { turn with moment }

end BuildCache
