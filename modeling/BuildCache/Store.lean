import BuildCache.Index
import BuildCache.Recency

/-! # The local store: artifact files in shards, with the least recently used evicted over capacity

The operations are made of steps that the steps of other operations may come between: a call on the
disk, or a section that holds the store's lock. -/
namespace BuildCache

structure Store.Counters where
  hits : Nat
  misses : Nat
  puts : Nat
  evictions : Nat
  corruptions : Nat
  deriving DecidableEq

/-- A process with a store. -/
structure Process where
  /-- Tells apart the temporary files of processes that share a directory. -/
  number : Nat
  /-- The longest text that it has memory for, if it asks for the memory of a text before it reads the text. -/
  memory : Option Nat
  deriving DecidableEq

structure Store where
  disk : Disk
  root : Path
  /-- The most bytes to keep, without a limit if there is none. -/
  capacity : Option Nat
  recency : Recency
  counters : Store.Counters
  process : Process
  nextTemp : Nat
  deriving DecidableEq

namespace Store

def artifactsPath (root : Path) : Path := root ++ ["artifacts"]
def shardPath (root : Path) (k : CacheKey) : Path := artifactsPath root ++ [k.shard]
def artifactPath (root : Path) (k : CacheKey) : Path := shardPath root k ++ [s!"{k.toHex}.art"]

def pathOf (s : Store) (k : CacheKey) : Path := artifactPath s.root k

/-- The parts of a name around its last point, which must not be its first character. -/
def splitName? (name : String) : Option (String × String) :=
  match name.toList.reverse.span (· ≠ '.') with
  | (_, []) | (_, [_]) => none
  | (ext, _ :: stem) => some (String.ofList stem.reverse, String.ofList ext.reverse)

/-- The key in the name of an artifact file. -/
def keyOfName? (name : String) : Option CacheKey := do
  let (stem, ext) ← splitName? name
  if ext = "art" then (CacheKey.parse stem).toOption else none

def isTemp (name : String) : Bool := (splitName? name).map (·.2) = some "tmp"

/-- The length that the disk reports for a directory. -/
def directoryLength : Nat := 4096

def lengthOf : Node → Nat
  | .file content => content.length
  | .directory => directoryLength

/-- Notes the artifacts of a shard and deletes its temporary files. -/
def scanShard (shard : Path) (acc : Disk × KeyMap Nat) (entry : String × Node) : Disk × KeyMap Nat :=
  match keyOfName? entry.1 with
  | some k => (acc.1, acc.2.insert k (lengthOf entry.2))
  | none => if isTemp entry.1 then ((acc.1.change (·.removeFile (shard ++ [entry.1]))).1, acc.2) else acc

def scanShards (artifacts : Path) (found : KeyMap Nat) (d : Disk) :
    List (String × Node) → Disk × Except CacheError (KeyMap Nat)
  | [] => (d, .ok found)
  | (_, .file _) :: rest => scanShards artifacts found d rest
  | (name, .directory) :: rest =>
    let shard := artifacts ++ [name]
    match d.look (·.list shard) with
    | (d, .error e) => (d, .error (Index.ioError shard e))
    | (d, .ok entries) =>
      let (d, found) := entries.foldl (scanShard shard) (d, found)
      scanShards artifacts found d rest

/-- The artifacts on disk with the lengths of their files. -/
def scan (d : Disk) (root : Path) : Disk × Except CacheError (KeyMap Nat) :=
  let artifacts := artifactsPath root
  match d.look (·.list artifacts) with
  | (d, .error e) => (d, .error (Index.ioError artifacts e))
  | (d, .ok shards) => scanShards artifacts [] d shards

/-- Takes over those entries of an index that are on disk, with the lengths found there. -/
def takeIndexed : Recency → KeyMap Nat → List (CacheKey × Nat) → Recency × KeyMap Nat
  | r, found, [] => (r, found)
  | r, found, (k, _) :: rest =>
    match found.find? k with
    | some size => takeIndexed (r.insert k size) (found.erase k) rest
    | none => takeIndexed r found rest

/-- Indexed entries in the order of the index, then the others by key. -/
def reconcile (found : KeyMap Nat) (index : Option Index) : Recency :=
  let (r, rest) := takeIndexed .empty found ((index.map (·.entries)).getD [])
  (rest.mergeSort fun a b => !(b.1 < a.1)).foldl (fun r e => r.insert e.1 e.2) r

/-- Deletes the file of a key and tells whether there was one. -/
def deleteFile (s : Store) (k : CacheKey) : Store × Except CacheError Bool :=
  match s.disk.change (·.removeFile (s.pathOf k)) with
  | (d, .ok ()) => ({ s with disk := d }, .ok true)
  | (d, .error .notFound) => ({ s with disk := d }, .ok false)
  | (d, .error e) => ({ s with disk := d }, .error (Index.ioError (s.pathOf k) e))

def evictFile (s : Store) (k : CacheKey) : Store :=
  match s.deleteFile k with
  | (s, .ok _) => { s with counters.evictions := s.counters.evictions + 1 }
  | (s, .error _) => s

/-- Brings the store down to its capacity; an entry whose file cannot be deleted is given up all the same. -/
def evict (s : Store) : Store :=
  match s.capacity with
  | none => s
  | some capacity =>
    let (r, gone) := s.recency.evictOver capacity
    gone.foldl evictFile { s with recency := r }

/-- Opens the store of a directory, which is created if needed. -/
def «open» (d : Disk) (root : Path) (capacity : Option Nat) (process : Process) : Disk × Except CacheError Store :=
  let artifacts := artifactsPath root
  match d.change (·.createDirectories artifacts) with
  | (d, .error e) => (d, .error (Index.ioError artifacts e))
  | (d, .ok ()) =>
    let root := root.resolve
    match scan d root with
    | (d, .error e) => (d, .error e)
    | (d, .ok found) =>
      let (d, index) := Index.load d root
      let s : Store := evict ⟨d, root, capacity, reconcile found index, ⟨0, 0, 0, 0, 0⟩, process, 0⟩
      (s.disk, .ok s)

/-- What the file of a key holds. -/
inductive Reading
  | found (artifact : Artifact) (size : Nat)
  | absent
  | corrupt (kind : Corruption)
  | failed (error : CacheError)
  | crashed (c : Crash)
  deriving DecidableEq

def pin (s : Store) (k : CacheKey) : Store := { s with recency := s.recency.pin k }

def readFile (s : Store) (k : CacheKey) : Store × Reading :=
  match s.disk.look (·.read (s.pathOf k)) with
  | (d, .ok raw) => ({ s with disk := d },
      match Artifact.decode s.process.memory k raw with
      | .ok a => .found a raw.length
      | .error kind => .corrupt kind
      | .crashed c => .crashed c)
  | (d, .error .notFound) => ({ s with disk := d }, .absent)
  | (d, .error e) => ({ s with disk := d }, .failed (Index.ioError (s.pathOf k) e))

/-- Ends a lookup: unpins the key and brings index, counters and disk in line with what was read. After a
crash nothing of this is done. -/
def settle (s : Store) (k : CacheKey) (reading : Reading) : Store × Result CacheError (Option Artifact) :=
  let r := s.recency.unpin k
  match reading with
  | .found a size =>
    ({ s with
        recency := if r.contains k then r.touch k else r.insert k size
        counters.hits := s.counters.hits + 1 }, .ok (some a))
  | .absent =>
    ({ s with
        recency := if s.disk.tree.isFile (s.pathOf k) then r else r.erase k
        counters.misses := s.counters.misses + 1 }, .ok none)
  | .corrupt kind =>
    let s := { s with recency := r.erase k, counters.corruptions := s.counters.corruptions + 1 }
    ((s.deleteFile k).1, .error (.corruption k kind))
  | .failed e => ({ s with recency := r }, .error e)
  | .crashed c => (s, .crashed c)

/-- Looks up a key; a damaged entry is deleted and reported. -/
def get (s : Store) (k : CacheKey) : Store × Result CacheError (Option Artifact) :=
  let (s, reading) := (s.pin k).readFile k
  s.settle k reading

/-- Whether there is a file for a key; it is not verified. -/
def has (s : Store) (k : CacheKey) : Bool := s.disk.tree.isFile (s.pathOf k)

def touch (s : Store) (k : CacheKey) : Store := { s with recency := s.recency.touch k }

def makeShard (s : Store) (k : CacheKey) : Store × Except CacheError Unit :=
  let shard := shardPath s.root k
  match s.disk.change (·.createDirectories shard) with
  | (d, .ok ()) => ({ s with disk := d }, .ok ())
  | (d, .error e) => ({ s with disk := d }, .error (Index.ioError shard e))

def tempPath (s : Store) (k : CacheKey) : Path :=
  shardPath s.root k ++ [s!"{k.toHex}.{s.process.number}.{s.nextTemp}.tmp"]

/-- Writes an artifact under a fresh temporary name. -/
def writeTemp (s : Store) (a : Artifact) : Store × Except CacheError Path :=
  let temp := s.tempPath a.key
  match s.disk.change (·.write temp a.encode) with
  | (d, .ok ()) => ({ s with disk := d, nextTemp := s.nextTemp + 1 }, .ok temp)
  | (d, .error e) => ({ s with disk := d, nextTemp := s.nextTemp + 1 }, .error (Index.ioError temp e))

def discard (s : Store) (temp : Path) : Store := { s with disk := (s.disk.change (·.removeFile temp)).1 }

/-- Moves a temporary file into place unless another writer was first, and evicts. -/
def publish (s : Store) (a : Artifact) (temp : Path) : Store × Except CacheError Unit :=
  if s.has a.key then ((s.discard temp).touch a.key, .ok ())
  else
    match s.disk.change (·.rename temp (s.pathOf a.key)) with
    | (d, .error e) => ({ s with disk := d }.discard temp, .error (Index.ioError (s.pathOf a.key) e))
    | (d, .ok ()) =>
      (evict { s with
        disk := d
        recency := s.recency.insert a.key a.encode.length
        counters.puts := s.counters.puts + 1 }, .ok ())

/-- Stores an artifact under its key; an entry that is there already is kept and counts as used. -/
def put (s : Store) (k : CacheKey) (a : Artifact) : Store × Except CacheError Unit :=
  if a.key ≠ k then (s, .error (.keyMismatch k a.key))
  else if s.has k then (s.touch k, .ok ())
  else
    match s.makeShard k with
    | (s, .error e) => (s, .error e)
    | (s, .ok ()) =>
      match s.writeTemp a with
      | (s, .error e) => (s, .error e)
      | (s, .ok temp) => s.publish a temp

/-- Removes a key and tells whether there was a file for it. -/
def remove (s : Store) (k : CacheKey) : Store × Except CacheError Bool :=
  deleteFile { s with recency := s.recency.erase k } k

def sweep : Store → (removed : Nat) → List CacheKey → Store × Except CacheError Nat
  | s, removed, [] => (s, .ok removed)
  | s, removed, k :: rest =>
    match s.remove k with
    | (s, .ok gone) => sweep s (if gone then removed + 1 else removed) rest
    | (s, .error e) => (s, .error e)

/-- Removes all unpinned entries but the live ones and counts the files deleted. -/
def gc (s : Store) (live : List CacheKey) : Store × Except CacheError Nat :=
  s.sweep 0 ((s.recency.toList.map (·.1)).filter fun k => !(live.contains k) && !(s.recency.isPinned k))

def saveIndex (s : Store) : Store × Except CacheError Unit :=
  let (d, r) := Index.save s.disk s.root s.process.number (.ofEntries s.recency.toList)
  ({ s with disk := d }, r)

structure Stats where
  counters : Counters
  entries : Nat
  totalBytes : Nat
  deriving DecidableEq

def Stats.named (t : Stats) : List (String × Nat) := [
  ("hits", t.counters.hits), ("misses", t.counters.misses), ("puts", t.counters.puts),
  ("evictions", t.counters.evictions), ("corruptions", t.counters.corruptions), ("entries", t.entries),
  ("total_bytes", t.totalBytes)]

def stats (s : Store) : Stats := ⟨s.counters, s.recency.size, s.recency.totalBytes⟩

end Store

def ContentHash.ofFile (d : Disk) (p : Path) : Except CacheError ContentHash :=
  match (d.look (·.read p)).2 with
  | .ok content => .ok (.ofBytes content)
  | .error e => .error (Index.ioError p e)

end BuildCache
