import Mathlib.Tactic.Common
import BuildCache.Config.Toml
import BuildCache.Remote.Http

/-! # Remotes of checked configurations: what passes the check, and what a remote is made of -/
namespace BuildCache

variable {r : RemoteConfig} {secrets : Secrets} {σ : Type} {send : Http.Transport σ} {e b : String}

/-- What a kind of remote needs is there, and not empty. -/
structure RemoteConfig.Complete (r : RemoteConfig) : Prop where
  endpoint : r.kind = .http ∨ r.kind = .s3 → ∃ e, r.endpoint = some e ∧ e ≠ ""
  bucket : r.kind = .s3 ∨ r.kind = .gcs → ∃ b, r.bucket = some b ∧ b ≠ ""

theorem RemoteConfig.exists_of_not_lacks {field : Option String} (h : ¬lacks field = true) :
    ∃ v, field = some v ∧ v ≠ "" := by
  cases field with
  | none => exact absurd rfl h
  | some v => exact ⟨v, rfl, by simpa [lacks] using h⟩

theorem RemoteConfig.complete_of_check (h : r.check = .ok ()) : r.Complete := by
  rw [check] at h
  split at h
  · cases h
  · next hendpoint =>
    split at h
    · cases h
    · next hbucket =>
      exact ⟨fun hkind => exists_of_not_lacks fun hl => hendpoint ⟨hkind, hl⟩,
        fun hkind => exists_of_not_lacks fun hl => hbucket ⟨hkind, hl⟩⟩

theorem Config.check_remote {c : Config} (h : c.check = .ok ()) : c.remote.check = .ok () := by
  rw [check] at h
  split_ifs at h
  exact h

theorem Config.check_of_parse {text : String} {c : Config} (h : parse text = .ok c) : c.check = .ok () := by
  rw [parse] at h
  split at h
  · next d hd =>
    cases hcheck : d.check with
    | error e =>
      rw [hcheck] at h
      cases h
    | ok u =>
      rw [hcheck] at h
      cases h
      exact hcheck
  · cases h

def BucketFlavour.kind : BucketFlavour → RemoteKind
  | .s3 => .s3
  | .gcs => .gcs

/-- The name that a remote goes by in logs and errors. -/
def RemoteKind.shown : RemoteKind → String
  | .none => "disabled"
  | kind => kind.name

/-- What is asked of an endpoint and of a bucket when a remote is made: an endpoint on the web, and one
name that is not blank. -/
structure RemoteConfig.Addressable (r : RemoteConfig) : Prop where
  endpoint : r.kind = .http → ∀ e, r.endpoint = some e → HttpAddress.isWeb e = true
  bucket : ∀ flavour : BucketFlavour, r.kind = flavour.kind → ∀ b, r.bucket = some b →
    Text.isBlankText b = false ∧ '/' ∉ b.toList

theorem Text.isBlankText_eq_false {c : Char} (hc : c ∈ e.toList) (hb : isBlank c = false) :
    isBlankText e = false := by
  rw [isBlankText, List.all_eq_false]
  exact ⟨c, hc, by simp [hb]⟩

theorem Credential.isSome_after?_iff {beginning s : String} :
    (after? beginning s).isSome ↔ beginning.toList <+: s.toList := by
  rw [after?, ← List.isPrefixOf_iff_prefix]
  split <;> simp_all

theorem HttpAddress.not_blank_of_isWeb (h : isWeb e = true) : Text.isBlankText e = false := by
  have hmem : 'h' ∈ e.toList := by
    rw [isWeb, Bool.or_eq_true, Credential.isSome_after?_iff, Credential.isSome_after?_iff] at h
    rcases h with h | h
    · exact h.subset (by decide)
    · exact h.subset (by decide)
  exact Text.isBlankText_eq_false hmem (by decide)

theorem RemoteAddress.required_some (field : String) (kind : RemoteKind) (hb : Text.isBlankText b = false) :
    required field kind (some b) = .ok b := by
  have hfilter : (some b).filter (fun v => !Text.isBlankText v) = some b := by rw [Option.filter_some, hb]; rfl
  rw [required, hfilter]

theorem RemoteConfig.ofConfig_http (hkind : r.kind = .http) (he : r.endpoint = some e)
    (hb : Text.isBlankText e = false) : RemoteAddress.ofConfig r =
      if HttpAddress.isWeb e then .ok (.http ⟨e, r.keyPrefix⟩)
      else .error (.config ("http: endpoint `" ++ e ++ "` must be an http(s) URL")) := by
  rw [RemoteAddress.ofConfig, hkind, he]
  simp only [RemoteAddress.required_some _ _ hb]
  show RemoteAddress.http <$> HttpAddress.of e r.keyPrefix = _
  rw [HttpAddress.of]
  split <;> rfl

theorem BucketAddress.of_eq {flavour : BucketFlavour} {endpoint : Option String}
    (h : flavour = .s3 → ∃ e, endpoint = some e) (bucket keyPrefix : String) :
    BucketAddress.of flavour endpoint bucket keyPrefix =
      if bucket = "" ∨ '/' ∈ bucket.toList then
        .error (.config (flavour.name ++ ": invalid bucket name `" ++ bucket ++ "`"))
      else .ok ⟨flavour, joinUrl (endpoint.getD publicEndpoint) bucket, keyPrefix⟩ := by
  cases endpoint with
  | some e => rfl
  | none =>
    cases flavour with
    | gcs => rfl
    | s3 =>
      obtain ⟨e, he⟩ := h rfl
      cases he

theorem RemoteConfig.Complete.ofConfig_bucket {flavour : BucketFlavour} (hc : r.Complete)
    (hkind : r.kind = flavour.kind) (hbucket : r.bucket = some b) (hb : Text.isBlankText b = false) :
    RemoteAddress.ofConfig r =
      if '/' ∈ b.toList then .error (.config (flavour.name ++ ": invalid bucket name `" ++ b ++ "`"))
      else .ok (.bucket ⟨flavour, joinUrl (r.endpoint.getD BucketAddress.publicEndpoint) b, r.keyPrefix⟩) := by
  have hmake : RemoteAddress.ofConfig r = .bucket <$> BucketAddress.of flavour r.endpoint b r.keyPrefix := by
    rw [RemoteAddress.ofConfig, hkind, hbucket]
    cases flavour with
    | s3 =>
      simp only [BucketFlavour.kind, RemoteAddress.required_some _ _ hb]
      rfl
    | gcs =>
      simp only [BucketFlavour.kind, RemoteAddress.required_some _ _ hb]
      rfl
  have hendpoint : flavour = .s3 → ∃ e, r.endpoint = some e := fun hs3 => by
    obtain ⟨e, he, -⟩ := hc.endpoint (.inr (hkind.trans (congrArg _ hs3)))
    exact ⟨e, he⟩
  have hne : b ≠ "" := by
    rintro rfl
    cases hb
  rw [hmake, BucketAddress.of_eq hendpoint]
  simp only [hne, false_or]
  split <;> rfl

/-- A checked remote whose endpoint and bucket can be addressed has an address of its kind. -/
theorem RemoteConfig.Complete.exists_address (hc : r.Complete) (ha : r.Addressable) :
    ∃ address, RemoteAddress.ofConfig r = .ok address ∧ address.name = r.kind.shown := by
  have hbucket : ∀ flavour : BucketFlavour, r.kind = flavour.kind →
      ∃ address, RemoteAddress.ofConfig r = .ok address ∧ address.name = flavour.name := fun flavour hkind => by
    obtain ⟨b, hb, -⟩ := hc.bucket (by cases flavour <;> simp [hkind, BucketFlavour.kind])
    obtain ⟨hblank, hslash⟩ := ha.bucket flavour hkind b hb
    exact ⟨_, (hc.ofConfig_bucket hkind hb hblank).trans (if_neg hslash), rfl⟩
  cases hkind : r.kind with
  | none => exact ⟨.disabled, by rw [RemoteAddress.ofConfig, hkind], rfl⟩
  | http =>
    obtain ⟨e, he, -⟩ := hc.endpoint (.inl hkind)
    have hweb := ha.endpoint hkind e he
    have haddress := ofConfig_http hkind he (HttpAddress.not_blank_of_isWeb hweb)
    exact ⟨_, haddress.trans (if_pos hweb), rfl⟩
  | s3 => exact hbucket .s3 hkind
  | gcs => exact hbucket .gcs hkind

/-- Every credential that is referred to is found. -/
def RemoteConfig.Resolves (r : RemoteConfig) (secrets : Secrets) : Prop :=
  ∀ reference, r.credential = some reference → ∃ credential, Credential.resolve secrets reference = .ok credential

theorem RemoteConfig.Resolves.ofConfig_eq (h : r.Resolves secrets) : ∃ credential,
    RemoteTarget.ofConfig secrets r = (RemoteAddress.ofConfig r).map fun address => ⟨address, credential⟩ := by
  have hcredential : ∃ credential, r.credential.mapM (Credential.resolve secrets) = .ok credential := by
    cases hr : r.credential with
    | none => exact ⟨none, rfl⟩
    | some reference =>
      obtain ⟨credential, hresolve⟩ := h reference hr
      exact ⟨some credential, by simp [hresolve]⟩
  obtain ⟨credential, hcredential⟩ := hcredential
  refine ⟨credential, ?_⟩
  rw [RemoteTarget.ofConfig, hcredential]
  show (RemoteAddress.ofConfig r >>= fun address => _) = _
  cases RemoteAddress.ofConfig r <;> rfl

def RemoteConfig.Refused (r : RemoteConfig) (secrets : Secrets) (send : Http.Transport σ) (error : RemoteError) :
    Prop :=
  RemoteTarget.ofConfig secrets r = .error error ∧ ∀ timer, Client.ofConfig timer secrets send r = .error error

theorem RemoteConfig.Resolves.refused {error : RemoteError} (h : r.Resolves secrets) (hkind : r.kind ≠ .none)
    (haddress : RemoteAddress.ofConfig r = .error error) : r.Refused secrets send error := by
  obtain ⟨credential, htarget⟩ := h.ofConfig_eq
  rw [haddress] at htarget
  refine ⟨htarget, fun timer => ?_⟩
  rw [Client.ofConfig, if_neg hkind, htarget]
  rfl

theorem RemoteTarget.name_backend (t : RemoteTarget) (timeoutMs : Nat) (send : Http.Transport σ) :
    (t.backend timeoutMs send).name = t.address.name := by
  rw [backend]
  split
  · next hdisabled => rw [hdisabled]; rfl
  · rfl

/-- A target and a client are made, both of the remote's kind; without a remote the client does nothing. -/
def RemoteConfig.Made (r : RemoteConfig) (secrets : Secrets) (send : Http.Transport σ) : Prop :=
  ∃ target, RemoteTarget.ofConfig secrets r = .ok target ∧ target.address.name = r.kind.shown ∧
    ∀ timer, ∃ client, Client.ofConfig timer secrets send r = .ok client ∧
      client.name = r.kind.shown ∧ (client.enabled = true ↔ r.kind ≠ .none)

theorem RemoteConfig.Resolves.made {address : RemoteAddress} (h : r.Resolves secrets)
    (haddress : RemoteAddress.ofConfig r = .ok address) (hname : address.name = r.kind.shown) :
    r.Made secrets send := by
  obtain ⟨credential, htarget⟩ := h.ofConfig_eq
  rw [haddress] at htarget
  refine ⟨_, htarget, hname, fun timer => ?_⟩
  by_cases hkind : r.kind = .none
  · refine ⟨.disabled σ timer, by rw [Client.ofConfig, if_pos hkind], ?_, ?_⟩
    · rw [hkind]
      rfl
    · simp [Client.disabled, hkind]
  · refine ⟨_, by rw [Client.ofConfig, if_neg hkind, htarget]; rfl, ?_, by simp [hkind]⟩
    exact (RemoteTarget.name_backend ⟨address, credential⟩ r.timeoutMs send).trans hname

/-- A remote can be made of every configuration that passes the check, if its credential is found and its
endpoint and bucket can be addressed. An endpoint that is not on the web and a bucket with a slash pass the
check as well; they are refused with an error that quotes them. -/
theorem makes_checked (send : Http.Transport σ) (secrets : Secrets) {text : String} {c : Config}
    (hparse : Config.parse text = .ok c) (hresolves : c.remote.Resolves secrets) :
    (c.remote.Addressable → c.remote.Made secrets send) ∧
    (∀ e, c.remote.kind = .http → c.remote.endpoint = some e → Text.isBlankText e = false →
      HttpAddress.isWeb e = false →
      c.remote.Refused secrets send (.config ("http: endpoint `" ++ e ++ "` must be an http(s) URL"))) ∧
    ∀ (flavour : BucketFlavour) b, c.remote.kind = flavour.kind → c.remote.bucket = some b → '/' ∈ b.toList →
      c.remote.Refused secrets send (.config (flavour.name ++ ": invalid bucket name `" ++ b ++ "`")) := by
  have hcomplete := RemoteConfig.complete_of_check (Config.check_remote (Config.check_of_parse hparse))
  refine ⟨fun ha => ?_, fun e hkind he hb hweb => ?_, fun flavour b hkind hbucket hslash => ?_⟩
  · obtain ⟨address, haddress, hname⟩ := hcomplete.exists_address ha
    exact hresolves.made haddress hname
  · have haddress := RemoteConfig.ofConfig_http hkind he hb
    rw [hweb] at haddress
    exact hresolves.refused (by rw [hkind]; nofun) haddress
  · have haddress := hcomplete.ofConfig_bucket hkind hbucket (Text.isBlankText_eq_false hslash (by decide))
    exact hresolves.refused (by rw [hkind]; cases flavour <;> nofun) (haddress.trans (if_pos hslash))

def serving (endpoint : String) : String :=
  "worker_count = 1\ntarget_runtime_version = \"OTP-27\"\ncompiler_version = \"0.1.0\"\n[remote_backend]\n" ++
    "kind = \"http\"\nendpoint = \"" ++ endpoint ++ "\"\n"

def served (endpoint : String) : Config :=
  ⟨Config.defaultDirectory, { RemoteConfig.default with kind := .http, endpoint := some endpoint }, some 1, "OTP-27",
    "0.1.0", none, .empty⟩

theorem makes_checked_serving : Config.parse (serving "http://cache") = .ok (served "http://cache") ∧
    (served "http://cache").remote.Made ⟨.empty, .empty⟩ (.refusing Unit) := by
  have hparse : Config.parse (serving "http://cache") = .ok (served "http://cache") := by decide +kernel
  have haddressable : (served "http://cache").remote.Addressable := by
    refine ⟨fun _ e he => ?_, fun flavour hkind => ?_⟩
    · cases he
      decide
    · cases flavour <;> cases hkind
  exact ⟨hparse, (makes_checked (.refusing Unit) ⟨.empty, .empty⟩ hparse nofun).1 haddressable⟩

/-- The check of a configuration asks for an endpoint, and not where it leads. -/
theorem checked_but_refused : Config.parse (serving "ftp://cache") = .ok (served "ftp://cache") ∧
    (served "ftp://cache").remote.credential = none ∧
    (served "ftp://cache").remote.Refused ⟨.empty, .empty⟩ (.refusing Unit)
      (.config "http: endpoint `ftp://cache` must be an http(s) URL") :=
  ⟨by decide +kernel, rfl, by decide +kernel, fun _ => rfl⟩

end BuildCache
