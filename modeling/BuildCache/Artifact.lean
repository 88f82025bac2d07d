import BuildCache.Checksum
import BuildCache.Digest
import BuildCache.Result
import BuildCache.Timestamp.Text
import BuildCache.Varint

/-! # Artifacts and their self-verifying encoding: header length, header, payload -/
namespace BuildCache

/-- Compiled output of one unit. -/
structure Artifact where
  key : CacheKey
  createdAt : Timestamp
  data : Bytes
  deriving DecidableEq

/-- The check that an encoded artifact fails. -/
inductive Corruption
  | truncated
  | invalidHeader (reason : String)
  | badMagic
  | versionMismatch (expected actual : Nat)
  | keyMismatch (found : CacheKey)
  | sizeMismatch (expected actual : Nat)
  | checksumMismatch (expected actual : Checksum)
  deriving DecidableEq

def Corruption.message : Corruption → String
  | .truncated => "truncated entry"
  | .invalidHeader reason => s!"invalid header: {reason}"
  | .badMagic => "bad magic bytes"
  | .versionMismatch expected actual => s!"format version mismatch: expected {expected}, got {actual}"
  | .keyMismatch found => s!"entry belongs to key {found.toHex}"
  | .sizeMismatch expected actual => s!"size mismatch: expected {expected} bytes, got {actual}"
  | .checksumMismatch expected actual =>
    s!"checksum mismatch: expected {Hex.ofNat 32 expected.toNat}, got {Hex.ofNat 32 actual.toNat}"

/-- A text with its length in bytes before it. -/
def Varint.encodeText (s : String) : Bytes :=
  let bytes := Bytes.ofText s
  encode bytes.length ++ bytes

def Varint.decodeText (bytes : Bytes) : Option (String × Bytes) := do
  let (length, rest) ← decode 8 bytes
  let (content, rest) ← rest.split? length
  pure (← content.toText?, rest)

namespace Artifact

def magic : Bytes := [0x41, 0x49, 0x52, 0x45]
def formatVersion : Nat := 1

structure Header where
  magic : Bytes
  version : Nat
  key : CacheKey
  createdAt : Timestamp
  size : Nat
  checksum : Checksum
  deriving DecidableEq

def Header.encode (h : Header) : Bytes :=
  h.magic ++ Varint.encode h.version ++ Varint.encodeText h.key.toHex ++ Varint.encodeText h.createdAt.toText
    ++ Varint.encode h.size ++ Varint.encode h.checksum.toNat

/-- Reads a header; bytes behind it are ignored. -/
def Header.decode? (bytes : Bytes) : Option Header := do
  let (magic, bytes) ← bytes.split? 4
  let (version, bytes) ← Varint.decode 4 bytes
  let (keyText, bytes) ← Varint.decodeText bytes
  let key ← (CacheKey.parse keyText).toOption
  let (timeText, bytes) ← Varint.decodeText bytes
  let createdAt ← Timestamp.ofText? timeText
  let (size, bytes) ← Varint.decode 8 bytes
  let (sum, _) ← Varint.decode 16 bytes
  pure ⟨magic, version, key, createdAt, size, BitVec.ofNat 128 sum⟩

def size (a : Artifact) : Nat := a.data.length

/-- The artifact as its encoded form gives it back. -/
def reread (a : Artifact) : Artifact := { a with createdAt := a.createdAt.regular }

def header (a : Artifact) : Header :=
  ⟨magic, formatVersion, a.key, a.createdAt, a.size, BuildCache.checksum a.data⟩

def encode (a : Artifact) : Bytes :=
  let header := a.header.encode
  Bytes.ofNat 4 header.length ++ header ++ a.data

/-- What the artifact of a key is read as if there is memory for it; of several failed checks the first one in
this order is reported. -/
def parse (key : CacheKey) (raw : Bytes) : Except Corruption Artifact := do
  let some (lengthBytes, rest) := raw.split? 4 | .error .truncated
  let some (headerBytes, payload) := rest.split? lengthBytes.toNat | .error .truncated
  let some header := Header.decode? headerBytes | .error (.invalidHeader "it cannot be read")
  if header.magic ≠ magic then .error .badMagic
  else if header.version ≠ formatVersion then .error (.versionMismatch formatVersion header.version)
  else if header.key ≠ key then .error (.keyMismatch header.key)
  else if header.size ≠ payload.length then .error (.sizeMismatch header.size payload.length)
  else if header.checksum ≠ BuildCache.checksum payload then
    .error (.checksumMismatch header.checksum (BuildCache.checksum payload))
  else .ok ⟨header.key, header.createdAt, payload⟩

/-- The lengths of the texts in a header, as far as it is read. -/
def Header.announced (bytes : Bytes) : List Nat :=
  let keyPart := do
    let (_, bytes) ← bytes.split? 4
    let (_, bytes) ← Varint.decode 4 bytes
    pure bytes
  let timePart := do
    let (keyText, bytes) ← Varint.decodeText (← keyPart)
    let _ ← (CacheKey.parse keyText).toOption
    pure bytes
  [keyPart, timePart].filterMap fun part => do pure (← Varint.decode 8 (← part)).1

def announced (raw : Bytes) : List Nat :=
  match (do let (length, rest) ← raw.split? 4; rest.split? length.toNat) with
  | some (headerBytes, _) => Header.announced headerBytes
  | none => []

/-- The first length that memory is short of, where memory is asked for ahead. As much as there is to read is
to be had in any case. -/
def shortage? (memory : Option Nat) (raw : Bytes) : Option Nat := do
  let most ← memory
  (announced raw).find? fun length => max most raw.length < length

/-- The lengths that can be asked for at all. -/
def lengthLimit : Nat := 0x8000000000000000

/-- Reads the artifact of a key. A reader may ask for the memory of a text that is announced before it reads
the text, however little there is to read; then the program breaks down where there is none. -/
def decode (memory : Option Nat) (key : CacheKey) (raw : Bytes) : Result Corruption Artifact :=
  match shortage? memory raw with
  | some length => .crashed (if lengthLimit ≤ length then .panicked else .aborted)
  | none => .ofExcept (parse key raw)

end Artifact

inductive CacheError
  | io (path reason : String)
  | corruption (key : CacheKey) (kind : Corruption)
  | keyMismatch (expected actual : CacheKey)
  | indexParse (reason : String)
  | serialization (reason : String)
  deriving DecidableEq

namespace CacheError

def message : CacheError → String
  | .io path reason => s!"cache I/O error at {path}: {reason}"
  | .corruption key kind => s!"corrupt cache entry {key.toHex}: {kind.message}"
  | .keyMismatch expected actual =>
    s!"artifact key {actual.toHex} does not match requested key {expected.toHex}"
  | .indexParse reason => s!"failed to parse cache index: {reason}"
  | .serialization reason => s!"serialization error: {reason}"

def isCorruption : CacheError → Bool
  | .corruption .. => true
  | _ => false

end CacheError
end BuildCache
