import BuildCache.Build.Schedule
import BuildCache.Remote.Http

/-! # Runs of builds: work is done in turns, and waits for the remote end in the order of time

Nothing but the remote takes time. So all that can be done at a moment is done before the clock goes on,
and of that first of all every wait is ended that is over. -/
namespace BuildCache

/-- When a build is cancelled. -/
structure Interruption where
  beforehand : Bool
  /-- As the compiler is called for a unit. -/
  whenCompiling : Option String
  /-- As the remote is first asked. -/
  whenFetching : Bool
  deriving DecidableEq

def Interruption.never : Interruption := ⟨false, none, false⟩

/-- The turn of a unit in flight: of several, the one that is least advanced goes on. Who waits has no turn. -/
def Stage.turn? : Stage → Option Nat
  | lookup => some 0
  | fetch => some 1
  | adopt _ | compile => some 2
  | keep _ => some 3
  | ended _ | lost .. => some 4
  | await _ => none

namespace Build.State

variable {σ : Type}

/-- The unit in flight that goes on, with its place. -/
def foremost? (s : State σ) : Option (Flight × Nat) :=
  (List.range 5).findSome? fun turn => s.flights.zipIdx.find? fun f => f.1.stage.turn? = some turn

/-- A step that is due at a moment. -/
structure Alarm where
  due : Nat
  event : (moment : Nat) → Event

/-- The steps that wait for the remote; a publication that has not begun is due at once. -/
def alarms (turn : Turn) (s : State σ) : List Alarm :=
  s.publications.zipIdx.map (fun q => ⟨q.1.due, fun moment => .publish q.2 (turn.at moment).toTurn⟩)
    ++ s.flights.zipIdx.filterMap fun f =>
      f.1.stage.due?.map fun due => ⟨due, fun moment => .work f.2 (turn.at moment)⟩

def earliest? : List Alarm → Option Alarm
  | [] => none
  | a :: rest => some (rest.foldl (fun a b => if b.due < a.due then b else a) a)

/-- The event that comes next, and the clock at it; there is none after the end. A cancellation ends all waits. -/
def next? (i : Interruption) (turn : Turn) (clock : Nat) (s : State σ) : Option (Event × Nat) :=
  let alarms := s.alarms turn
  if i.whenFetching && !s.cancelled && s.flights.any (·.stage.due?.isSome) then some (.cancel, clock)
  else
    match alarms.find? fun a => s.cancelled || a.due ≤ clock with
    | some a => some (a.event clock, clock)
    | none =>
      if s.phase = .releasing then some (.release, clock)
      else
        match s.foremost? with
        | some (f, place) =>
          if f.stage.isOver then some (.join place 0, clock)
          else if f.stage.isCompile && i.whenCompiling = some f.name && !s.cancelled then some (.cancel, clock)
          else some (.work place (turn.at clock), clock)
        | none => (earliest? alarms).map fun a => (a.event a.due, a.due)

/-- Runs through at most so many events. -/
def run (b : Builder σ) (p : Plan) (i : Interruption) (turn : Turn) : (events clock : Nat) → State σ → State σ
  | 0, _, s => s
  | events + 1, clock, s =>
    match s.next? i turn clock with
    | none => s
    | some (e, clock) =>
      match s.step? b p e with
      | some s => run b p i turn events clock s
      | none => s

/-- The most events for a unit: its release and the pass after that, its lookup, compilation and storing, its
result, and two steps for every attempt of its fetch and of its publication. -/
def eventsPerUnit (b : Builder σ) : Nat := 4 * b.client.policy.maxRetries + 10

end Build.State

namespace Builder

variable {σ : Type}

/-- Builds units with cancellation at some moment; a bad graph leaves the caches as they are. Besides the
events for units there is a cancellation and a last pass. -/
def build (b : Builder σ) (c : Caches σ) (sources : List Source) (i : Interruption) (turn : Build.Turn) :
    Except BuildError (Build.State σ) :=
  match Plan.ofSources sources with
  | .error e => .error (.graph e)
  | .ok p =>
    let s := Build.State.initial p c
    .ok ({ s with cancelled := i.beforehand }.run b p i turn (Build.State.eventsPerUnit b * p.order.length + 2) 0)

/-- The builder and the caches that a configuration describes. The store is opened first and stays
if there is no such remote; `workers` is the number used if the configuration gives none. -/
def ofConfig (compiler : Compiler) (timer : Timer) (secrets : Secrets) (send : Http.Transport σ) (remote : σ)
    (d : Disk) (project : String) (process : Process) (workers : Nat) (c : Config) :
    Disk × Except BuildError (Builder σ × Caches σ) :=
  let r := c.resolve project
  match Store.open d (Path.ofText r.cacheDirectory) r.capacity process with
  | (d, .error e) => (d, .error (.cache e))
  | (d, .ok store) => (d,
    match Client.ofConfig timer secrets send r.remote with
    | .error e => .error (.remote e)
    | .ok client => .ok (.of compiler client r.environment (r.workers.getD workers), ⟨store, .initial remote⟩))

end Builder
end BuildCache
