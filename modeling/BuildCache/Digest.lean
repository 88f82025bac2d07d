import BuildCache.Blake3
import BuildCache.Hex

/-! # Digests: content hashes of bytes and cache keys of build outputs -/
namespace BuildCache

structure Digest where
  bytes : Bytes
  length_eq : bytes.length = 32
  deriving DecidableEq

inductive DigestError
  | length (actual : Nat)
  | character (offset : Nat)
  deriving DecidableEq

def DigestError.message : DigestError → String
  | .length actual => s!"expected 64 hex characters, got {actual}"
  | .character offset => s!"invalid hex character at offset {offset}"

namespace Digest

def hash (bytes : Bytes) : Digest := ⟨Blake3.hash bytes, Blake3.length_hash bytes⟩

def toHex (d : Digest) : String := Hex.encode d.bytes

/-- Reads exactly 64 hex digits; the length counts UTF-8 bytes. -/
def parse (s : String) : Except DigestError Digest :=
  let digits := Bytes.ofText s
  if hl : digits.length = 64 then
    match hd : Hex.decode 0 digits with
    | .error offset => .error (.character offset)
    | .ok bytes => .ok ⟨bytes, by rw [Hex.length_decode hd, hl]⟩
  else .error (.length digits.length)

/-- The first four bytes, as shown in diagnostics. -/
def brief (d : Digest) : String := Hex.encode (d.bytes.take 4) ++ ".."

def first (d : Digest) : UInt8 := d.bytes.get ⟨0, by simp [d.length_eq]⟩

end Digest

/-- The BLAKE3 digest of raw bytes: a source unit or a payload. -/
structure ContentHash where
  digest : Digest
  deriving DecidableEq

/-- The identity of a build output. -/
structure CacheKey where
  digest : Digest
  deriving DecidableEq

namespace ContentHash

def ofBytes (bytes : Bytes) : ContentHash := ⟨.hash bytes⟩
def parse (s : String) : Except DigestError ContentHash := (Digest.parse s).map .mk
def bytes (h : ContentHash) : Bytes := h.digest.bytes
def toHex (h : ContentHash) : String := h.digest.toHex
def summary (h : ContentHash) : String := s!"ContentHash({h.digest.brief})"

/-- The hash of no bytes at all. -/
def empty : ContentHash := ⟨⟨[
  0xaf, 0x13, 0x49, 0xb9, 0xf5, 0xf9, 0xa1, 0xa6, 0xa0, 0x40, 0x4d, 0xea, 0x36, 0xdc, 0xc9, 0x49,
  0x9b, 0xcb, 0x25, 0xc9, 0xad, 0xc1, 0x12, 0xb7, 0xcc, 0x9a, 0x93, 0xca, 0xe4, 0x1f, 0x32, 0x62], rfl⟩⟩

end ContentHash

namespace CacheKey

def parse (s : String) : Except DigestError CacheKey := (Digest.parse s).map .mk
def bytes (k : CacheKey) : Bytes := k.digest.bytes
def toHex (k : CacheKey) : String := k.digest.toHex
def summary (k : CacheKey) : String := s!"CacheKey({k.digest.brief})"

/-- The two digits that name the directory of an entry. -/
def shard (k : CacheKey) : String := Hex.encode [k.digest.first]

/-- Byte order, which is also the order of the hex forms. -/
instance : LT CacheKey where lt a b := a.bytes < b.bytes
instance (a b : CacheKey) : Decidable (a < b) := inferInstanceAs (Decidable (a.bytes < b.bytes))

end CacheKey
end BuildCache
