import BuildCache.Json.Parser
import BuildCache.Json.Printer
import BuildCache.NameMap

/-! # The build environment: all that influences the compiler's output besides its input -/
namespace BuildCache

structure Environment where
  runtime : String
  compiler : String
  /-- Further output-affecting fields, such as compile flags. -/
  extra : NameMap String
  deriving DecidableEq

namespace Environment

def ofVersions (runtime compiler : String) : Environment := ⟨runtime, compiler, .empty⟩

def withField (env : Environment) (name value : String) : Environment :=
  { env with extra := env.extra.insert name value }

def toJson (env : Environment) : Json := .ofMembers [
  ("target_runtime_version", .ofText env.runtime),
  ("compiler_version", .ofText env.compiler),
  ("extra", .ofMembers (env.extra.entries.map fun e => (e.1, .ofText e.2)))]

def fieldsOfJson? (j : Json) : Option (NameMap String) := do
  let members ← j.asMembers?
  let entries ← members.mapM fun m => (m.1, ·) <$> m.2.asText?
  pure (.ofList entries)

def ofJson? (j : Json) : Option Environment := do
  match ← j.asRecord? ["target_runtime_version", "compiler_version", "extra"] with
  | [some runtime, some compiler, extra] =>
    pure ⟨← runtime.asText?, ← compiler.asText?, ← extra.elim (some .empty) fieldsOfJson?⟩
  | _ => none

end Environment

end BuildCache
