import BuildCache.Digest
import BuildCache.Environment

/-! # Cache keys: the digest of a content hash, the dependencies' keys and the environment -/
namespace BuildCache

/-- All that a unit's key is computed from; order and repetition of the dependencies do not matter. -/
structure Derivation where
  content : ContentHash
  dependencies : List (String × CacheKey)
  environment : Environment

namespace Derivation

def domain : Bytes := Bytes.ofText "aire-cache-key/v1"

/-- The order of the dependencies in the preimage: by name, then by key. -/
def Before (a b : String × CacheKey) : Prop := a.1 < b.1 ∨ a.1 = b.1 ∧ a.2 < b.2

instance (a b : String × CacheKey) : Decidable (Before a b) := inferInstanceAs (Decidable (_ ∨ _))

def place (d : String × CacheKey) : List (String × CacheKey) → List (String × CacheKey)
  | [] => [d]
  | e :: rest => if Before d e then d :: e :: rest else if d = e then e :: rest else e :: place d rest

/-- The dependencies in order, each once. -/
def ordered (dependencies : List (String × CacheKey)) : List (String × CacheKey) :=
  dependencies.foldr place []

def count (n : Nat) : Bytes := Bytes.ofNat 8 n

/-- A text behind its length, so that neighbouring texts cannot run together. -/
def counted (s : String) : Bytes :=
  let bytes := Bytes.ofText s
  count bytes.length ++ bytes

def dependencyBytes (d : String × CacheKey) : Bytes := counted d.1 ++ d.2.bytes

def fieldBytes (f : String × String) : Bytes := counted f.1 ++ counted f.2

def preimage (d : Derivation) : Bytes :=
  let dependencies := ordered d.dependencies
  let extra := d.environment.extra.entries
  domain ++ d.content.bytes
    ++ count dependencies.length ++ dependencies.flatMap dependencyBytes
    ++ counted d.environment.runtime ++ counted d.environment.compiler
    ++ count extra.length ++ extra.flatMap fieldBytes

def key (d : Derivation) : CacheKey := ⟨.hash d.preimage⟩

end Derivation
end BuildCache
