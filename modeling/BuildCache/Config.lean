import BuildCache.Environment
import BuildCache.Text.Blank

/-! # Build configurations: their fields and defaults, what is checked of them, and what builds take from them -/
namespace BuildCache

inductive RemoteKind
  | s3
  | gcs
  | http
  | none
  deriving DecidableEq

namespace RemoteKind

def name : RemoteKind → String
  | .s3 => "s3"
  | .gcs => "gcs"
  | .http => "http"
  | .none => "none"

def ofName? : String → Option RemoteKind
  | "s3" => some .s3
  | "gcs" => some .gcs
  | "http" => some .http
  | "none" => some .none
  | _ => Option.none

end RemoteKind

structure RemoteConfig where
  kind : RemoteKind
  endpoint : Option String
  bucket : Option String
  /-- Stands in front of the name of every object. -/
  keyPrefix : String
  /-- Where the credential is found. -/
  credential : Option String
  timeoutMs : Nat
  maxRetries : Nat
  initialBackoffMs : Nat
  deriving DecidableEq

def RemoteConfig.default : RemoteConfig := ⟨.none, none, none, "", none, 5000, 3, 100⟩

structure Config where
  cacheDirectory : String
  remote : RemoteConfig
  workers : Option Nat
  runtime : String
  compiler : String
  capacity : Option Nat
  /-- Further output-affecting fields. -/
  extra : NameMap String
  deriving DecidableEq

inductive ConfigError
  | read (path reason : String)
  | parse (reason : String)
  | missing (field : String)
  | invalid (field reason : String)
  deriving DecidableEq

def ConfigError.message : ConfigError → String
  | .read path reason => s!"cannot read {path}: {reason}"
  | .parse reason => s!"invalid aire.toml: {reason}"
  | .missing field => "missing required field `" ++ field ++ "`"
  | .invalid field reason => "invalid value for `" ++ field ++ "`: " ++ reason

namespace RemoteConfig

def lacks (field : Option String) : Bool := field.getD "" = ""

def required (field : String) (kind : RemoteKind) : ConfigError :=
  .missing (s!"remote_backend.{field} (required for kind = " ++ "\"" ++ kind.name ++ "\")")

def check (r : RemoteConfig) : Except ConfigError Unit :=
  if (r.kind = .http ∨ r.kind = .s3) ∧ lacks r.endpoint then .error (required "endpoint" r.kind)
  else if (r.kind = .s3 ∨ r.kind = .gcs) ∧ lacks r.bucket then .error (required "bucket" r.kind)
  else if r.kind ≠ .none ∧ r.timeoutMs = 0 then
    .error (.invalid "remote_backend.timeout_ms" "must be greater than 0")
  else .ok ()

end RemoteConfig

namespace Config

def defaultDirectory : String := ".aire-cache"

def check (c : Config) : Except ConfigError Unit :=
  if Text.isBlankText c.runtime then .error (.missing "target_runtime_version")
  else if Text.isBlankText c.compiler then .error (.missing "compiler_version")
  else if c.workers = some 0 then .error (.invalid "worker_count" "must be at least 1")
  else if c.capacity = some 0 then .error (.invalid "cache_capacity_bytes" "must be greater than 0")
  else c.remote.check

/-- A path below a directory, unless it begins at the root. -/
def joined (directory path : String) : String :=
  if path.startsWith "/" || directory = "" then path
  else if directory.endsWith "/" then directory ++ path
  else directory ++ "/" ++ path

/-- What a build takes from a configuration. -/
structure Resolved where
  cacheDirectory : String
  /-- The number of units compiled at a time; none stands for what the machine can run. -/
  workers : Option Nat
  capacity : Option Nat
  environment : Environment
  remote : RemoteConfig
  deriving DecidableEq

def resolve (c : Config) (project : String) : Resolved where
  cacheDirectory := joined project c.cacheDirectory
  workers := c.workers.map (max 1)
  capacity := c.capacity
  environment := ⟨c.runtime, c.compiler, c.extra⟩
  remote := c.remote

end Config
end BuildCache
