import BuildCache.Digest
import BuildCache.Remote.Credential
import BuildCache.Config

/-! # Where remote caches keep objects: addresses with a key's hex form at their end -/
namespace BuildCache

/-- Two parts of an address with one slash between them. -/
def joinUrl (base path : String) : String :=
  String.ofList ((base.toList.reverse.dropWhile (· = '/')).reverse ++ '/' :: path.toList.dropWhile (· = '/'))

/-- A server that keeps objects right below its endpoint. -/
structure HttpAddress where
  endpoint : String
  keyPrefix : String
  deriving DecidableEq

namespace HttpAddress

def isWeb (endpoint : String) : Bool :=
  (Credential.after? "http://" endpoint).isSome || (Credential.after? "https://" endpoint).isSome

def of (endpoint keyPrefix : String) : Except RemoteError HttpAddress :=
  if isWeb endpoint then .ok ⟨endpoint, keyPrefix⟩
  else .error (.config ("http: endpoint `" ++ endpoint ++ "` must be an http(s) URL"))

def objectUrl (a : HttpAddress) (k : CacheKey) : String := joinUrl a.endpoint (a.keyPrefix ++ k.toHex)

end HttpAddress

inductive BucketFlavour
  | s3
  | gcs
  deriving DecidableEq

def BucketFlavour.name : BucketFlavour → String
  | .s3 => "s3"
  | .gcs => "gcs"

/-- A bucket of an object store, where objects lie in shards. -/
structure BucketAddress where
  flavour : BucketFlavour
  bucketUrl : String
  keyPrefix : String
  deriving DecidableEq

namespace BucketAddress

def publicEndpoint : String := "https://storage.googleapis.com"

def of (flavour : BucketFlavour) (endpoint : Option String) (bucket keyPrefix : String) :
    Except RemoteError BucketAddress := do
  let endpoint ← match flavour, endpoint with
    | _, some e => .ok e
    | .gcs, none => .ok publicEndpoint
    | .s3, none => .error (.config "s3: an endpoint is required")
  if bucket = "" ∨ '/' ∈ bucket.toList then
    .error (.config (flavour.name ++ ": invalid bucket name `" ++ bucket ++ "`"))
  else .ok ⟨flavour, joinUrl endpoint bucket, keyPrefix⟩

def objectName (a : BucketAddress) (k : CacheKey) : String := a.keyPrefix ++ k.shard ++ "/" ++ k.toHex

def objectUrl (a : BucketAddress) (k : CacheKey) : String := joinUrl a.bucketUrl (a.objectName k)

end BucketAddress

inductive RemoteAddress
  | disabled
  | http (a : HttpAddress)
  | bucket (a : BucketAddress)
  deriving DecidableEq

namespace RemoteAddress

def name : RemoteAddress → String
  | .disabled => "disabled"
  | .http _ => "http"
  | .bucket a => a.flavour.name

def objectUrl : RemoteAddress → CacheKey → String
  | .disabled, _ => ""
  | .http a, k => a.objectUrl k
  | .bucket a, k => a.objectUrl k

/-- A field that a kind of remote cache needs, not blank. -/
def required (field : String) (kind : RemoteKind) (value : Option String) : Except RemoteError String :=
  match value.filter fun v => !Text.isBlankText v with
  | some v => .ok v
  | none => .error (.config ("`" ++ field ++ "` is required for `" ++ kind.name ++ "` remotes"))

def ofConfig (r : RemoteConfig) : Except RemoteError RemoteAddress := do
  match r.kind with
  | .none => .ok .disabled
  | .http => .http <$> HttpAddress.of (← required "endpoint" .http r.endpoint) r.keyPrefix
  | .s3 => .bucket <$> BucketAddress.of .s3 r.endpoint (← required "bucket" .s3 r.bucket) r.keyPrefix
  | .gcs => .bucket <$> BucketAddress.of .gcs r.endpoint (← required "bucket" .gcs r.bucket) r.keyPrefix

end RemoteAddress

/-- A remote cache to talk to, with the credential to show. -/
structure RemoteTarget where
  address : RemoteAddress
  credential : Option Credential
  deriving DecidableEq

/-- The target that a configuration describes. A credential is looked up first, whether it is needed or not. -/
def RemoteTarget.ofConfig (secrets : Secrets) (r : RemoteConfig) : Except RemoteError RemoteTarget := do
  let credential ← r.credential.mapM (Credential.resolve secrets)
  .ok ⟨← RemoteAddress.ofConfig r, credential⟩

end BuildCache
