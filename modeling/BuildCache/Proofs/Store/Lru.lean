import BuildCache.Proofs.KeyMap
import BuildCache.Store

/-! # A bounded map that gives up what was least recently used, and the calls on it and on the store -/
namespace BuildCache

/-- Artifacts by key, least recently used first, and what was counted. -/
structure Lru where
  entries : KeyMap Artifact
  counters : Store.Counters

namespace Lru

def empty : Lru := ⟨[], ⟨0, 0, 0, 0, 0⟩⟩

def bytes (a : Artifact) : Nat := a.encode.length

/-- Drops no more of the least recently used entries than are needed to keep a capacity. -/
def fit (capacity : Option Nat) (entries : KeyMap Artifact) : KeyMap Artifact :=
  capacity.elim entries fun limit => entries.trim bytes limit

def put (capacity : Option Nat) (m : Lru) (k : CacheKey) (a : Artifact) : Lru × Except CacheError Unit :=
  if a.key ≠ k then (m, .error (.keyMismatch k a.key))
  else
    match m.entries.find? k with
    | some old => ({ m with entries := m.entries.erase k ++ [(k, old)] }, .ok ())
    | none =>
      let entries := m.entries ++ [(k, a)]
      let kept := fit capacity entries
      ({ entries := kept
         counters := { m.counters with
          puts := m.counters.puts + 1
          evictions := m.counters.evictions + (entries.length - kept.length) } }, .ok ())

/-- An artifact that is found is given out with the creation time that its text tells. -/
def get (m : Lru) (k : CacheKey) : Lru × Option Artifact :=
  match m.entries.find? k with
  | some a => ({ m with entries := m.entries.erase k ++ [(k, a)], counters.hits :=
    m.counters.hits + 1 }, some a.reread)
  | none => ({ m with counters.misses := m.counters.misses + 1 }, none)

def has (m : Lru) (k : CacheKey) : Bool := (m.entries.find? k).isSome

def remove (m : Lru) (k : CacheKey) : Lru × Bool := ({ m with entries := m.entries.erase k }, m.has k)

def gc (m : Lru) (live : List CacheKey) : Lru × Nat :=
  let kept := m.entries.filter fun e => live.contains e.1
  ({ m with entries := kept }, m.entries.length - kept.length)

def stats (m : Lru) : Store.Stats := ⟨m.counters, m.entries.length, m.entries.weight bytes⟩

end Lru

namespace Store

inductive Op
  | put (k : CacheKey) (a : Artifact)
  | get (k : CacheKey)
  | has (k : CacheKey)
  | remove (k : CacheKey)
  | gc (live : List CacheKey)
  | saveIndex

inductive Answer
  | done (r : Except CacheError Unit)
  | found (r : Result CacheError (Option Artifact))
  | whether (r : Except CacheError Bool)
  | count (r : Except CacheError Nat)

namespace Op

def onStore (s : Store) : Op → Store × Answer
  | put k a => (s.put k a).map id .done
  | get k => (s.get k).map id .found
  | has k => (s, .whether (.ok (s.has k)))
  | remove k => (s.remove k).map id .whether
  | gc live => (s.gc live).map id .count
  | saveIndex => s.saveIndex.map id .done

def onLru (capacity : Option Nat) (m : Lru) : Op → Lru × Answer
  | put k a => (m.put capacity k a).map id .done
  | get k => (m.get k).map id fun a => .found (.ok a)
  | has k => (m, .whether (.ok (m.has k)))
  | remove k => (m.remove k).map id fun b => .whether (.ok b)
  | gc live => (m.gc live).map id fun n => .count (.ok n)
  | saveIndex => (m, .done (.ok ()))

/-- An artifact that is stored has a length in 64 bits. -/
def Sized : Op → Prop
  | put _ a => a.size < Bytes.range 8
  | get _ | has _ | remove _ | gc _ | saveIndex => True

/-- Makes calls one after another and keeps the answers. -/
def run {α : Type} (call : α → Op → α × Answer) : α → List Op → α × List Answer
  | x, [] => (x, [])
  | x, op :: rest => ((run call (call x op).1 rest).1, (call x op).2 :: (run call (call x op).1 rest).2)

end Op

end Store
end BuildCache
