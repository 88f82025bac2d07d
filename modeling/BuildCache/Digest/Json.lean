import BuildCache.Digest
import BuildCache.Json.Parser
import BuildCache.Json.Printer

/-! # Digests in JSON: a string of 64 hex digits -/
namespace BuildCache

namespace Digest

def toJson (d : Digest) : Json := .ofText d.toHex

def ofJson? (j : Json) : Option Digest := do
  match Digest.parse (← j.asText?) with
  | .ok d => pure d
  | .error _ => none

end Digest

namespace CacheKey

def toJson (k : CacheKey) : Json := k.digest.toJson
def ofJson? (j : Json) : Option CacheKey := CacheKey.mk <$> Digest.ofJson? j

end CacheKey
end BuildCache
