import BuildCache.Artifact
import BuildCache.Digest.Json
import BuildCache.Disk

/-! # The persisted index: keys and sizes in the order of their last use -/
namespace BuildCache

structure Index where
  version : Nat
  entries : List (CacheKey × Nat)
  deriving DecidableEq

namespace Index

def fileName : String := "index.json"

def ofEntries (entries : List (CacheKey × Nat)) : Index := ⟨Artifact.formatVersion, entries⟩

def entryToJson (e : CacheKey × Nat) : Json := .ofMembers [("key", e.1.toJson), ("size", .ofNat e.2)]

def toJson (i : Index) : Json := .ofMembers [
  ("format_version", .ofNat i.version),
  ("entries", .array (i.entries.map entryToJson))]

def render (i : Index) : String := i.toJson.pretty

def entryOfJson? (j : Json) : Option (CacheKey × Nat) := do
  match ← j.asRecord? ["key", "size"] with
  | [some key, some size] => pure (← CacheKey.ofJson? key, ← size.asNatUpTo? 0xffffffffffffffff)
  | _ => none

def ofJson? (j : Json) : Option Index := do
  match ← j.asRecord? ["format_version", "entries"] with
  | [some version, some entries] =>
    pure ⟨← version.asNatUpTo? 0xffffffff, ← (← entries.asArray?).mapM entryOfJson?⟩
  | _ => none

def parse (text : String) : Except CacheError Index :=
  match Json.parse? text >>= ofJson? with
  | some i => .ok i
  | none => .error (.indexParse "it is no index")

/-- The index in a file's content, unless it is damaged or of another version. -/
def ofFile? (content : Bytes) : Option Index := do
  let i ← (parse (← content.toText?)).toOption
  if i.version = Artifact.formatVersion then some i else none

/-- A failed call on a path as an error of the cache. -/
def ioError (p : Path) (e : Fault) : CacheError := .io ("/".intercalate p) e.message

/-- Reads the index of a cache directory; anything unusable counts as no index. -/
def load (d : Disk) (root : Path) : Disk × Option Index :=
  match d.look (·.read (root ++ [fileName])) with
  | (d, .ok content) => (d, ofFile? content)
  | (d, .error _) => (d, none)

/-- Writes the index under a temporary name of its writer and moves it into place. -/
def save (d : Disk) (root : Path) (writer : Nat) (i : Index) : Disk × Except CacheError Unit :=
  match d.change (·.createDirectories root) with
  | (d, .error e) => (d, .error (ioError root e))
  | (d, .ok ()) =>
    let target := root ++ [fileName]
    let temp := root ++ [s!"{fileName}.{writer}.tmp"]
    match d.change (·.write temp (Bytes.ofText i.render)) with
    | (d, .error e) => (d, .error (ioError temp e))
    | (d, .ok ()) =>
      match d.change (·.rename temp target) with
      | (d, .error e) => (d, .error (ioError target e))
      | (d, .ok ()) => (d, .ok ())

end Index
end BuildCache
