import BuildCache.Build.Error
import BuildCache.Digest.Json
import BuildCache.Disk
import BuildCache.Duration
import BuildCache.Json.Printer
import BuildCache.Timestamp.Text

/-! # Reports: how each unit of a build ended, as text and as JSON -/
namespace BuildCache

inductive Outcome
  | localHit
  | remoteHit
  | compiled
  | failed
  | skipped
  | cancelled
  deriving DecidableEq

namespace Outcome

def all : List Outcome := [localHit, remoteHit, compiled, failed, skipped, cancelled]

def label : Outcome → String
  | localHit => "cache-hit-local"
  | remoteHit => "cache-hit-remote"
  | compiled => "compiled"
  | failed => "failed"
  | skipped => "skipped"
  | cancelled => "cancelled"

def ofLabel? (s : String) : Option Outcome := all.find? (·.label = s)

def isHit (o : Outcome) : Bool := o = localHit || o = remoteHit

def isSuccess (o : Outcome) : Bool := o.isHit || o = compiled

end Outcome

/-- The key of an artifact and the length of its data. -/
structure ArtifactRef where
  key : CacheKey
  size : Nat
  deriving DecidableEq

def Artifact.ref (a : Artifact) : ArtifactRef := ⟨a.key, a.size⟩

structure UnitResult where
  name : String
  outcome : Outcome
  duration : Duration
  /-- The key, once it was derived. -/
  key : Option CacheKey
  artifact : Option ArtifactRef
  error : Option String
  deriving DecidableEq

namespace UnitResult

def skipped (name reason : String) : UnitResult := ⟨name, .skipped, 0, none, none, some reason⟩

/-- The result of a unit that a cancelled build left undone. -/
def cancelled (name : String) (key : Option CacheKey) : UnitResult :=
  ⟨name, .cancelled, 0, key, none, some "build cancelled"⟩

end UnitResult

structure Report where
  startedAt : Timestamp
  elapsed : Duration
  results : NameMap UnitResult

namespace Report

/-- A report on units, of which the last result counts. -/
def ofResults (startedAt : Timestamp) (elapsed : Duration) (results : List UnitResult) : Report :=
  ⟨startedAt, elapsed, .ofList (results.map fun r => (r.name, r))⟩

def list (r : Report) : List UnitResult := r.results.entries.map (·.2)
def size (r : Report) : Nat := r.results.size
def outcome? (r : Report) (name : String) : Option Outcome := (r.results.find? name).map (·.outcome)

def unitsWith (r : Report) (o : Outcome) : List String := (r.list.filter (·.outcome = o)).map (·.name)

def count (r : Report) (o : Outcome) : Nat := (r.unitsWith o).length

def isSuccess (r : Report) : Bool := r.list.all (·.outcome.isSuccess)

def exitCode (r : Report) : Nat := if r.isSuccess then 0 else 1

def padded (width : Nat) (s : String) : String := s ++ String.ofList (List.replicate (width - s.length) ' ')

def line (u : UnitResult) : String :=
  "  " ++ padded 9 u.outcome.label ++ " " ++ u.name ++ (u.error.elim "" (": " ++ ·)) ++ "\n"

/-- The counts on one line, then a line for each unit without an artifact. -/
def text (r : Report) : String :=
  s!"{r.size} units in {r.elapsed.secondsText}s: {r.count .compiled} compiled, {r.count .localHit} local hits, "
    ++ s!"{r.count .remoteHit} remote hits, {r.count .failed} failed, {r.count .skipped} skipped, "
    ++ s!"{r.count .cancelled} cancelled\n"
    ++ String.join ((r.list.filter fun u => !u.outcome.isSuccess).map line)

/-- Milliseconds in 64 bits. -/
def millisJson (d : Duration) : Json := .ofNat (d.millis % Bytes.range 8)

/-- A member that is left out if there is no value for it. -/
def member? {α : Type} (name : String) (write : α → Json) (value : Option α) : List (String × Json) :=
  (value.map fun a => (name, write a)).toList

def artifactJson (a : ArtifactRef) : Json := .ofMembers [("key", a.key.toJson), ("size", .ofNat a.size)]

def resultJson (u : UnitResult) : Json := .ofMembers (
  [("name", .ofText u.name), ("outcome", .ofText u.outcome.label), ("duration_ms", millisJson u.duration)]
    ++ member? "key" (·.toJson) u.key
    ++ member? "artifact" artifactJson u.artifact
    ++ member? "error" .ofText u.error)

def toJson (r : Report) : Json := .ofMembers [
  ("started_at", .ofText r.startedAt.toText),
  ("elapsed_ms", millisJson r.elapsed),
  ("results", .ofMembers (r.results.entries.map fun e => (e.1, resultJson e.2)))]

/-- Writes the indented JSON text, and the directories on the way to it. -/
def write (r : Report) (d : Disk) (p : Path) : Disk × Except BuildError Unit :=
  match d.change (·.writeDeep p (Bytes.ofText r.toJson.pretty)) with
  | (d, .ok ()) => (d, .ok ())
  | (d, .error e) => (d, .error (.report ("/".intercalate p) e.message))

end Report
end BuildCache
