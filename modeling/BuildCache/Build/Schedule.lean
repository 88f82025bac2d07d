import BuildCache.Build.Board
import BuildCache.Build.Publication

/-! # Builds as transition systems

Units are released in the build order as soon as their dependencies have results, as many at a time
as there are workers. Between releases the work on units in flight goes on in any order, step by step,
and so do publications; cancellation may come at any moment. -/
namespace BuildCache.Build

inductive Phase
  | releasing
  /-- Nothing more can be released until a unit in flight ends. -/
  | waiting
  | finished
  /-- The work on a unit broke down. -/
  | aborted (l : Loss) (failure : String)
  deriving DecidableEq

structure State (σ : Type) where
  board : Board
  caches : Caches σ
  flights : List Flight
  publications : List Publication
  /-- The units handed to the compiler, in this order, with what they were compiled against. -/
  compilations : List (String × NameMap Artifact)
  phase : Phase
  cancelled : Bool

inductive Event
  /-- One pass of the release loop. -/
  | release
  /-- One step of work on a unit in flight. -/
  | work (flight : Nat) (turn : Turn)
  /-- Takes up the result of a unit in flight, on which some time was spent. -/
  | join (flight : Nat) (duration : Duration)
  /-- One step of a publication. -/
  | publish (publication : Nat) (turn : Client.Turn)
  | cancel
  deriving DecidableEq

namespace State

variable {σ : Type}

/-- The remote is tried again even if an earlier build gave it up. -/
def initial (p : Plan) (c : Caches σ) : State σ where
  board := .initial p
  caches := { c with remote := Client.reset c.remote }
  flights := []
  publications := []
  compilations := []
  phase := .releasing
  cancelled := false

/-- Ends a build: reports what is left as cancelled and saves the index, if the disk lets it. -/
def finish (p : Plan) (s : State σ) : State σ :=
  { s with
    board := s.board.close p
    caches := { s.caches with store := s.caches.store.saveIndex.1 }
    phase := .finished }

/-- Waits for units in flight, without any the build is over. -/
def rest (p : Plan) (s : State σ) : State σ :=
  if s.flights = [] then s.finish p else { s with phase := .waiting }

/-- Takes up a ready unit: skips it if it cannot be built, and else sends it off. -/
def take (b : Builder σ) (p : Plan) (s : State σ) (name : String) : State σ :=
  let board := s.board.take name
  match board.causes.find? name with
  | some cause => { s with board := board.record p (.skipped name cause) }
  | none =>
    match p.graph.find? name with
    | none => { s with board }
    | some source =>
      let key := board.keyOf b.environment source
      { s with
        board := { board with keys := board.keys.insert name key }
        flights := s.flights ++ [⟨source, key, board.dependencyArtifacts source, .lookup⟩] }

def release (b : Builder σ) (p : Plan) (s : State σ) : State σ :=
  if b.workers ≤ s.flights.length ∨ s.cancelled then s.rest p
  else
    match s.board.next? p with
    | none => s.rest p
    | some name => s.take b p name

def compilation (f : Flight) : List (String × NameMap Artifact) :=
  if f.stage.isCompile then [(f.name, f.dependencies)] else []

def work (b : Builder σ) (s : State σ) (i : Nat) (f : Flight) (turn : Turn) : State σ :=
  let r := f.work b s.cancelled turn s.caches
  { s with
    caches := r.caches
    flights := s.flights.set i { f with stage := r.stage }
    compilations := s.compilations ++ compilation f }

def publish (b : Builder σ) (s : State σ) (i : Nat) (q : Publication) (turn : Client.Turn) : State σ :=
  let (remote, next) := q.step b s.cancelled turn s.caches.remote
  { s with
    caches := { s.caches with remote }
    publications := next.elim (s.publications.eraseIdx i) (s.publications.set i) }

def resultOf (f : Flight) (e : Ending) (duration : Duration) : UnitResult :=
  ⟨f.name, e.outcome, duration, some f.key, e.artifact?.map (·.ref), e.error?⟩

/-- What was compiled goes to the remote. -/
def published (b : Builder σ) : Ending → List Publication
  | .compiled a => if b.client.enabled then [.of a] else []
  | _ => []

def join (b : Builder σ) (p : Plan) (s : State σ) (i : Nat) (f : Flight) (e : Ending) (duration : Duration) :
    State σ :=
  { s with
    board := (s.board.conclude p f.name e).record p (resultOf f e duration)
    flights := s.flights.eraseIdx i
    publications := s.publications ++ published b e
    phase := .releasing }

/-- Gives up all units in flight. -/
def abort (s : State σ) (l : Loss) (failure : String) : State σ :=
  { s with flights := [], phase := .aborted l failure }

/-- The process dies, and all that goes on in it ends. -/
def perish (s : State σ) (l : Loss) (failure : String) : State σ :=
  { s with flights := [], publications := [], phase := .aborted l failure }

def step? (b : Builder σ) (p : Plan) (s : State σ) : Event → Option (State σ)
  | .release => if s.phase = .releasing then some (s.release b p) else none
  | .work i turn => do
    let f ← s.flights[i]?
    if f.stage.isOver then none
    else
      match (f.work b s.cancelled turn s.caches).stage.fatal? with
      | some (l, failure) => some ((s.work b i f turn).perish l failure)
      | none => some (s.work b i f turn)
  | .join i duration => do
    let f ← s.flights[i]?
    if s.phase ≠ .waiting then none
    else
      match f.stage with
      | .ended e => some (s.join b p i f e duration)
      | .lost l failure => some (s.abort l failure)
      | _ => none
  | .publish i turn => do
    let q ← s.publications[i]?
    some (s.publish b i q turn)
  | .cancel => if s.cancelled then none else some { s with cancelled := true }

def steps? (b : Builder σ) (p : Plan) : State σ → List Event → Option (State σ)
  | s, [] => some s
  | s, e :: rest => do steps? b p (← s.step? b p e) rest

theorem steps?_append (b : Builder σ) (p : Plan) (s : State σ) (es fs : List Event) :
    s.steps? b p (es ++ fs) = (s.steps? b p es).bind (steps? b p · fs) := by
  induction es generalizing s with
  | nil => rfl
  | cons e es ih =>
    simp only [List.cons_append, steps?]
    cases s.step? b p e with
    | none => rfl
    | some t => exact ih t

def isOver (s : State σ) : Bool :=
  match s.phase with
  | .finished | .aborted .. => true
  | .releasing | .waiting => false

def report (s : State σ) (startedAt : Timestamp) (elapsed : Duration) : Result BuildError Report :=
  match s.phase with
  | .aborted l failure =>
    match l.crash with
    | .panicked => .error (.task failure)
    | .aborted => .crashed .aborted
  | _ => .ok (.ofResults startedAt elapsed s.board.results)

end State
end BuildCache.Build
