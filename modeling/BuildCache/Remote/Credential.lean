import BuildCache.Bytes
import BuildCache.NameMap
import BuildCache.Remote.Error
import BuildCache.Text.Blank

/-! # Credentials and where they are found: in a variable, in a file, or in the reference itself -/
namespace BuildCache

structure Credential where
  secret : String
  deriving DecidableEq

/-- The variables of the environment and the files that references to credentials may name. -/
structure Secrets where
  settings : NameMap Bytes
  files : NameMap Bytes

namespace Credential

/-- Diagnostics never show the secret. -/
def summary (_ : Credential) : String := "Credential(<redacted>)"

/-- The rest of a text behind its beginning. -/
def after? (beginning s : String) : Option String :=
  if beginning.toList.isPrefixOf s.toList then some (String.ofList (s.toList.drop beginning.length)) else none

/-- The text that a reference leads to. A variable counts as it is, a file without blanks at its ends. -/
def lookup (secrets : Secrets) (reference : String) : Except RemoteError String :=
  match after? "env:" reference with
  | some name =>
    match secrets.settings.find? name >>= Bytes.toText? with
    | some s => .ok s
    | none => .error (.config ("credential variable `" ++ name ++ "` is not set"))
  | none =>
    match after? "file:" reference with
    | some path =>
      match secrets.files.find? path >>= Bytes.toText? with
      | some s => .ok (Text.trim s)
      | none => .error (.config ("cannot read credential file `" ++ path ++ "`"))
    | none => .ok reference

def resolve (secrets : Secrets) (reference : String) : Except RemoteError Credential := do
  let secret ← lookup secrets reference
  if secret = "" then .error (.config "credential is empty") else .ok ⟨secret⟩

end Credential
end BuildCache
