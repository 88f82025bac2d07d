/-! # Failures of a remote cache -/
namespace BuildCache

inductive RemoteError
  | timeout (backend : String) (afterMs : Nat)
  | transport (backend reason : String)
  | status (backend : String) (code : Nat)
  | unavailable (backend reason : String)
  | cancelled
  | config (reason : String)
  deriving DecidableEq

namespace RemoteError

def message : RemoteError → String
  | .timeout backend afterMs => s!"{backend}: request timed out after {afterMs}ms"
  | .transport backend reason => s!"{backend}: transport error: {reason}"
  | .status backend code => s!"{backend}: unexpected status {code}"
  | .unavailable backend reason => s!"remote cache {backend} unavailable: {reason}"
  | .cancelled => "remote operation cancelled"
  | .config reason => s!"invalid remote configuration: {reason}"

/-- Whether a retry may succeed: the server was not reached, was busy or failed itself. -/
def isTransient : RemoteError → Bool
  | .timeout .. | .transport .. => true
  | .status _ code => code = 408 || code = 429 || (500 ≤ code && code < 600)
  | _ => false

end RemoteError
end BuildCache
