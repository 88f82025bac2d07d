import BuildCache.Artifact
import BuildCache.Config
import BuildCache.Graph.Basic
import BuildCache.Remote.Error

/-! # Failures that end a whole build -/
namespace BuildCache

inductive BuildError
  | graph (e : GraphError)
  | cache (e : CacheError)
  | remote (e : RemoteError)
  | config (e : ConfigError)
  | report (path reason : String)
  | task (reason : String)
  deriving DecidableEq

def BuildError.message : BuildError → String
  | .graph e => e.message
  | .cache e => e.message
  | .remote e => e.message
  | .config e => e.message
  | .report path reason => s!"failed to write build report {path}: {reason}"
  | .task reason => s!"build task failed: {reason}"

end BuildCache
