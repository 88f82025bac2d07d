import BuildCache.Build.Basic

/-! # Units in flight: lookup, fetch and compilation as single steps

The steps of one unit touch the caches only, and the steps of other units may come between them. -/
namespace BuildCache

/-- How the work on a unit ended. -/
inductive Ending
  | localHit (a : Artifact)
  | remoteHit (a : Artifact)
  | compiled (a : Artifact)
  | failed (message : String)
  | cancelled
  deriving DecidableEq

namespace Ending

def outcome : Ending → Outcome
  | localHit _ => .localHit
  | remoteHit _ => .remoteHit
  | compiled _ => .compiled
  | failed _ => .failed
  | cancelled => .cancelled

def artifact? : Ending → Option Artifact
  | localHit a | remoteHit a | compiled a => some a
  | failed _ | cancelled => none

def error? : Ending → Option String
  | localHit _ | remoteHit _ | compiled _ => none
  | failed message => some message
  | cancelled => some "build cancelled"

/-- Why dependents of a unit that ended without an artifact are skipped. -/
def cause (unit : String) : Ending → String
  | failed _ => "dependency `" ++ unit ++ "` failed"
  | e => "dependency `" ++ unit ++ "` was " ++ e.outcome.label

end Ending

/-- Why the work on a unit breaks down. -/
inductive Loss
  /-- A retry has no delay, or attempts can be counted no further. -/
  | retry
  /-- There is no memory for what bytes from the remote announce. -/
  | fetched (c : Crash) (raw : Bytes)
  /-- There is no memory for what the file in the store announces. -/
  | found
  deriving DecidableEq

def Loss.crash : Loss → Crash
  | retry => .panicked
  | fetched c _ => c
  | found => .aborted

/-- What is to be done next for a unit. -/
inductive Stage
  | lookup
  | fetch
  /-- The remote was asked, and the unit waits for it. -/
  | await (w : Client.Wait (Option Bytes))
  /-- Store an artifact that was fetched. -/
  | adopt (a : Artifact)
  | compile
  /-- Store an artifact that was compiled. -/
  | keep (a : Artifact)
  | ended (e : Ending)
  | lost (l : Loss) (failure : String)

namespace Stage

def isOver : Stage → Bool
  | ended _ | lost .. => true
  | _ => false

def isCompile : Stage → Bool
  | compile => true
  | _ => false

/-- The moment at which a wait for the remote ends. -/
def due? : Stage → Option Nat
  | await w => some w.ends
  | _ => none

/-- A loss that the whole process dies of. -/
def fatal? : Stage → Option (Loss × String)
  | lost l failure => if l.crash = .aborted then some (l, failure) else none
  | _ => none

end Stage

structure Flight where
  source : Source
  key : CacheKey
  /-- The artifacts of the direct dependencies. -/
  dependencies : NameMap Artifact
  stage : Stage

namespace Flight

variable {σ : Type}

def name (f : Flight) : String := f.source.name

structure Progress (σ : Type) where
  caches : Caches σ
  stage : Stage

/-- Anything but an artifact counts as a miss, a panic included. -/
def lookup (turn : Build.Turn) (c : Caches σ) (f : Flight) : Progress σ :=
  match c.store.get f.key with
  | (store, .ok (some a)) => ⟨{ c with store }, .ended (.localHit a)⟩
  | (store, .crashed .aborted) => ⟨{ c with store }, .lost .found turn.failure⟩
  | (store, _) => ⟨{ c with store }, .fetch⟩

/-- Bytes that do not decode count as a miss, and so does a failure. -/
def fetched (memory : Option Nat) (failure : String) (f : Flight) : Client.Progress (Option Bytes) → Stage
  | .waiting w => .await w
  | .over (.ok (some raw)) =>
    match Artifact.decode memory f.key raw with
    | .ok a => .adopt a
    | .error _ => .compile
    | .crashed c => .lost (.fetched c raw) failure
  | .over (.ok none) => .compile
  | .over (.error .cancelled) => .ended .cancelled
  | .over (.error _) => .compile
  | .lost => .lost .retry failure

def fetch (b : Builder σ) (cancelled : Bool) (turn : Build.Turn) (c : Caches σ) (f : Flight) : Progress σ :=
  let (remote, p) := b.client.startFetch cancelled f.key turn.toTurn c.remote
  ⟨{ c with remote }, f.fetched c.store.process.memory turn.failure p⟩

def await (b : Builder σ) (cancelled : Bool) (turn : Build.Turn) (c : Caches σ) (f : Flight)
    (w : Client.Wait (Option Bytes)) : Progress σ :=
  let (remote, p) := b.client.resumeFetch cancelled f.key w turn.toTurn c.remote
  ⟨{ c with remote }, f.fetched c.store.process.memory turn.failure p⟩

/-- Puts an artifact into the store; it does not matter whether the store can take it. -/
def store (c : Caches σ) (f : Flight) (a : Artifact) (e : Ending) : Progress σ :=
  ⟨{ c with store := (c.store.put f.key a).1 }, .ended e⟩

def compile (b : Builder σ) (turn : Build.Turn) (c : Caches σ) (f : Flight) : Progress σ :=
  match b.compiler f.source f.dependencies with
  | .output data => ⟨c, .keep ⟨f.key, turn.now.toTimestamp, data⟩⟩
  | .rejected message => ⟨c, .ended (.failed message)⟩
  | .crashed => ⟨c, .ended (.failed (Compilation.crashReport turn.failure))⟩

/-- One step of work, of which there is none after the end. -/
def work (b : Builder σ) (cancelled : Bool) (turn : Build.Turn) (c : Caches σ) (f : Flight) : Progress σ :=
  match f.stage with
  | .lookup => f.lookup turn c
  | .fetch => f.fetch b cancelled turn c
  | .await w => f.await b cancelled turn c w
  | .adopt a => f.store c a (.remoteHit a)
  | .compile => f.compile b turn c
  | .keep a => f.store c a (.compiled a)
  | .ended _ | .lost .. => ⟨c, f.stage⟩

end Flight
end BuildCache
