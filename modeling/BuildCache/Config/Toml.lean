import BuildCache.Config
import BuildCache.Disk
import BuildCache.Toml.Parser

/-! # Reading configurations from TOML -/
namespace BuildCache

namespace Toml

def asText? : Toml → Option String
  | .text s => some s
  | _ => none

/-- A natural number that is at most `limit`. -/
def asNatUpTo? (limit : Nat) : Toml → Option Nat
  | .integer n => if 0 ≤ n ∧ n ≤ limit then some n.toNat else none
  | _ => none

/-- The name under which a moment in the place of a table holds its text. -/
def momentName : String := "$__toml_private_datetime"

def asMembers? : Toml → Option Entries
  | .table _ entries => some entries
  | .moment written => some [(momentName, .text written)]
  | _ => none

/-- Reads a record by its field names: from a table with any further entries, or from an array that
gives fields in order and may be too long or too short. -/
def asRecord? (names : List String) : Toml → Option (List (Option Toml))
  | .array items | .elements items =>
    some ((items.map some ++ List.replicate names.length none).take names.length)
  | t => t.asMembers?.map fun entries => names.map (List.lookup · entries)

def isEmpty : Toml → Bool
  | .array [] | .elements [] | .table _ [] => true
  | _ => false

/-- One of several names: a text, or a table with an empty value under the name. -/
def asChoice? : Toml → Option String
  | .text s => some s
  | .table _ [(name, v)] => if v.isEmpty then some name else none
  | _ => none

def asTexts? (t : Toml) : Option (NameMap String) := do
  let entries ← (← t.asMembers?).mapM fun e => (e.1, ·) <$> e.2.asText?
  pure (.ofList entries)

/-- A field that may be missing, in which case it has a default. -/
def field? {α : Type} (default : α) (read : Toml → Option α) : Option Toml → Option α
  | none => some default
  | some t => read t

end Toml

def RemoteKind.ofToml? (t : Toml) : Option RemoteKind := t.asChoice? >>= RemoteKind.ofName?

def RemoteConfig.ofToml? (t : Toml) : Option RemoteConfig := do
  let names := ["kind", "endpoint", "bucket", "prefix", "credentials_ref", "timeout_ms", "max_retries",
    "initial_backoff_ms"]
  match ← t.asRecord? names with
  | [kind, endpoint, bucket, keyPrefix, credential, timeout, retries, backoff] =>
    let d := RemoteConfig.default
    let text := Toml.field? none fun t => some <$> t.asText?
    let count (limit default : Nat) := Toml.field? default (Toml.asNatUpTo? limit)
    pure {
      kind := ← Toml.field? d.kind RemoteKind.ofToml? kind
      endpoint := ← text endpoint
      bucket := ← text bucket
      keyPrefix := ← Toml.field? d.keyPrefix Toml.asText? keyPrefix
      credential := ← text credential
      timeoutMs := ← count 0xffffffffffffffff d.timeoutMs timeout
      maxRetries := ← count 0xffffffff d.maxRetries retries
      initialBackoffMs := ← count 0xffffffffffffffff d.initialBackoffMs backoff }
  | _ => none

namespace Config

def ofToml? (t : Toml) : Option Config := do
  let names := ["cache_directory", "remote_backend", "worker_count", "target_runtime_version", "compiler_version",
    "cache_capacity_bytes", "env"]
  match ← t.asRecord? names with
  | [directory, remote, workers, some runtime, some compiler, capacity, extra] =>
    let count := Toml.field? none fun t => some <$> t.asNatUpTo? 0xffffffffffffffff
    pure {
      cacheDirectory := ← Toml.field? defaultDirectory Toml.asText? directory
      remote := ← Toml.field? .default RemoteConfig.ofToml? remote
      workers := ← count workers
      runtime := ← runtime.asText?
      compiler := ← compiler.asText?
      capacity := ← count capacity
      extra := ← Toml.field? .empty Toml.asTexts? extra }
  | _ => none

def parse (text : String) : Except ConfigError Config := do
  let some c := Toml.parse? text >>= ofToml? | .error (.parse "it is no configuration")
  c.check
  .ok c

def fileName : String := "aire.toml"

/-- Reads and checks the configuration in a project's directory. -/
def load (d : Disk) (project : Path) : Disk × Except ConfigError Config :=
  let path := project ++ [fileName]
  let failed (reason : String) : ConfigError := .read ("/".intercalate path) reason
  match d.look (·.read path) with
  | (d, .error e) => (d, .error (failed e.message))
  | (d, .ok content) => (d,
      match Bytes.toText? content with
      | some text => parse text
      | none => .error (failed "the text is no valid UTF-8"))

end Config
end BuildCache
