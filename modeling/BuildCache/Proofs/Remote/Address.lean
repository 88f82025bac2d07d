import Mathlib.Data.List.Basic
import Mathlib.Logic.Function.Basic
import Mathlib.Tactic.Common
import BuildCache.Proofs.Hex
import BuildCache.Proofs.Remote.Configured

/-! # Addresses of remote objects: no two keys have the same, and stray slashes change none -/
namespace BuildCache

variable {s t base start endpoint bucket keyPrefix : String} {flavour : BucketFlavour}

def slashes (n : Nat) : String := String.ofList (List.replicate n '/')

theorem toList_slashes (n : Nat) : (slashes n).toList = List.replicate n '/' := String.toList_ofList

theorem slashes_append (n m : Nat) : slashes n ++ slashes m = slashes (n + m) := by
  rw [slashes, slashes, slashes, ← String.ofList_append, List.replicate_append_replicate]

/-- The second text is the first without the slashes at its end. -/
structure TrimmedEnd (s t : String) : Prop where
  eq : ∃ n, s = t ++ slashes n
  bare : t.toList.getLast? ≠ some '/'

/-- The second text is the first without the slashes at its start. -/
structure TrimmedStart (s t : String) : Prop where
  eq : ∃ n, s = slashes n ++ t
  bare : t.toList.head? ≠ some '/'

theorem TrimmedEnd.of_bare (h : s.toList.getLast? ≠ some '/') : TrimmedEnd s s :=
  ⟨⟨0, String.append_empty.symm⟩, h⟩

theorem TrimmedStart.of_bare (h : s.toList.head? ≠ some '/') : TrimmedStart s s :=
  ⟨⟨0, String.empty_append.symm⟩, h⟩

private theorem exists_bare (cs : List Char) :
    ∃ n ds, cs = List.replicate n '/' ++ ds ∧ ds.head? ≠ some '/' := by
  induction cs with
  | nil => exact ⟨0, [], rfl, nofun⟩
  | cons c cs ih =>
    by_cases hc : c = '/'
    · obtain ⟨n, ds, rfl, hds⟩ := ih
      exact ⟨n + 1, ds, by rw [hc, List.replicate_succ, List.cons_append], hds⟩
    · exact ⟨0, c :: cs, rfl, by simpa using hc⟩

theorem exists_trimmedStart (s : String) : ∃ t, TrimmedStart s t := by
  obtain ⟨n, ds, hs, hds⟩ := exists_bare s.toList
  refine ⟨String.ofList ds, ⟨n, ?_⟩, by rwa [String.toList_ofList]⟩
  rw [slashes, ← String.ofList_append, ← hs, String.ofList_toList]

theorem exists_trimmedEnd (s : String) : ∃ t, TrimmedEnd s t := by
  obtain ⟨n, ds, hs, hds⟩ := exists_bare s.toList.reverse
  refine ⟨String.ofList ds.reverse, ⟨n, ?_⟩, by rwa [String.toList_ofList, List.getLast?_reverse]⟩
  rw [slashes, ← String.ofList_append, ← List.reverse_replicate, ← List.reverse_append, ← hs, List.reverse_reverse,
    String.ofList_toList]

theorem TrimmedEnd.append (h : TrimmedEnd s t) (n : Nat) : TrimmedEnd (s ++ slashes n) t := by
  obtain ⟨⟨m, rfl⟩, hbare⟩ := h
  exact ⟨⟨m + n, by rw [String.append_assoc, slashes_append]⟩, hbare⟩

theorem TrimmedStart.append (h : TrimmedStart s t) (n : Nat) : TrimmedStart (slashes n ++ s) t := by
  obtain ⟨⟨m, rfl⟩, hbare⟩ := h
  exact ⟨⟨n + m, by rw [← String.append_assoc, slashes_append]⟩, hbare⟩

/-- Slashes are cut off before a name only as far as it does not begin with one itself. -/
theorem TrimmedStart.append_bare {name : String} (h : TrimmedStart s t) (hname : name.toList.head? ≠ some '/') :
    TrimmedStart (s ++ name) (t ++ name) := by
  obtain ⟨⟨n, rfl⟩, hbare⟩ := h
  refine ⟨⟨n, String.append_assoc⟩, ?_⟩
  rw [String.toList_append]
  cases ht : t.toList with
  | nil => exact hname
  | cons c cs => rwa [ht] at hbare

private theorem dropWhile_slashes {cs : List Char} (n : Nat) (h : cs.head? ≠ some '/') :
    (List.replicate n '/' ++ cs).dropWhile (· = '/') = cs := by
  rw [List.dropWhile_append_of_pos (by simp)]
  cases cs with
  | nil => rfl
  | cons c cs => exact List.dropWhile_cons_of_neg (by simpa using h)

theorem joinUrl_eq (hs : TrimmedEnd s base) (ht : TrimmedStart t start) : joinUrl s t = base ++ "/" ++ start := by
  obtain ⟨⟨n, rfl⟩, hbase⟩ := hs
  obtain ⟨⟨m, rfl⟩, hstart⟩ := ht
  have hend : base.toList.reverse.head? ≠ some '/' := by rwa [List.head?_reverse]
  rw [joinUrl, String.toList_append, String.toList_append, toList_slashes, toList_slashes, List.reverse_append,
    List.reverse_replicate, dropWhile_slashes n hend, dropWhile_slashes m hstart, List.reverse_reverse]
  simp [← String.toList_inj]

structure IsSegment (s : String) : Prop where
  ne_empty : s ≠ ""
  no_slash : '/' ∉ s.toList

theorem IsSegment.head? (h : IsSegment s) : s.toList.head? ≠ some '/' :=
  fun hs => h.no_slash (List.mem_of_mem_head? hs)

theorem IsSegment.getLast? (h : IsSegment s) : s.toList.getLast? ≠ some '/' :=
  fun hs => h.no_slash (List.mem_of_getLast? hs)

theorem IsSegment.head?_append (h : IsSegment s) (t : String) : (s ++ t).toList.head? ≠ some '/' := by
  rw [String.toList_append, List.head?_append_of_ne_nil _ (mt String.toList_eq_nil_iff.mp h.ne_empty)]
  exact h.head?

theorem IsSegment.getLast?_append (h : IsSegment s) (t : String) : (t ++ s).toList.getLast? ≠ some '/' := by
  rw [String.toList_append, List.getLast?_append_of_ne_nil _ (mt String.toList_eq_nil_iff.mp h.ne_empty)]
  exact h.getLast?

theorem Hex.isSegment_encode {bytes : Bytes} (h : encode bytes ≠ "") : IsSegment (encode bytes) :=
  ⟨h, not_mem_encode (by decide) bytes⟩

theorem CacheKey.isSegment_toHex (k : CacheKey) : IsSegment k.toHex := Hex.isSegment_encode k.toHex_ne_empty

theorem CacheKey.isSegment_shard (k : CacheKey) : IsSegment k.shard := by
  apply Hex.isSegment_encode
  simp [Hex.encode_eq, Hex.pair]

/-- A text of some parts with exactly one slash between each and the next. -/
structure Joined (parts : List String) (s : String) : Prop where
  eq : s = "/".intercalate parts
  starts : ∀ part ∈ parts.tail, part.toList.head? ≠ some '/'
  ends : ∀ part ∈ parts.dropLast, part.toList.getLast? ≠ some '/'

theorem injective_of_ends {url : CacheKey → String} (h : ∀ k, ∃ s, url k = s ++ k.toHex) :
    Function.Injective url := by
  intro k l hkl
  obtain ⟨s, hs⟩ := h k
  obtain ⟨t, ht⟩ := h l
  have hends : s ++ k.toHex = t ++ l.toHex := by rw [← hs, ← ht, hkl]
  have hlength : k.toHex.length = l.toHex.length := by rw [k.length_toHex, l.length_toHex]
  exact CacheKey.toHex_injective (Text.append_inj_of_length hlength hends).2

/-- What is made of an endpoint and a prefix keeps the objects of distinct keys apart. Slashes at the end of the
one and at the start of the other make no difference, and the rest of both is among the parts of each address. -/
structure Apart {α : Type} (of : String → String → Except RemoteError α) (objectUrl : α → CacheKey → String)
    (parts : String → String → CacheKey → List String) (endpoint keyPrefix : String) (a : α) : Prop where
  injective : Function.Injective (objectUrl a)
  unchanged : ∀ n m, ∃ b, of (endpoint ++ slashes n) (slashes m ++ keyPrefix) = .ok b ∧ objectUrl b = objectUrl a
  joined : ∃ base start, TrimmedEnd endpoint base ∧ TrimmedStart keyPrefix start ∧
    ∀ k, Joined (parts base start k) (objectUrl a k)

theorem Apart.of_joined {α : Type} {of : String → String → Except RemoteError α} {objectUrl : α → CacheKey → String}
    {parts : String → String → CacheKey → List String} (make : String → String → α)
    (hof : ∀ n p, of (endpoint ++ slashes n) p = .ok (make (endpoint ++ slashes n) p))
    (hjoined : ∀ {e p base start}, TrimmedEnd e base → TrimmedStart p start →
      ∀ k, Joined (parts base start k) (objectUrl (make e p) k))
    (hends : ∀ base start k, ∃ s, "/".intercalate (parts base start k) = s ++ k.toHex) :
    Apart of objectUrl parts endpoint keyPrefix (make endpoint keyPrefix) := by
  obtain ⟨base, hbase⟩ := exists_trimmedEnd endpoint
  obtain ⟨start, hstart⟩ := exists_trimmedStart keyPrefix
  have hurl := hjoined hbase hstart
  refine ⟨injective_of_ends fun k => ?_, fun n m => ⟨_, hof n _, ?_⟩, base, start, hbase, hstart, hurl⟩
  · obtain ⟨s, hs⟩ := hends base start k
    exact ⟨s, (hurl k).eq.trans hs⟩
  · funext k
    exact (hjoined (hbase.append n) (hstart.append m) k).eq.trans (hurl k).eq.symm

namespace HttpAddress

theorem isWeb_append (h : isWeb s = true) (t : String) : isWeb (s ++ t) = true := by
  rw [isWeb, Bool.or_eq_true, Credential.isSome_after?_iff, Credential.isSome_after?_iff] at h ⊢
  rw [String.toList_append]
  have hlonger := List.prefix_append s.toList t.toList
  exact h.imp (·.trans hlonger) (·.trans hlonger)

theorem isWeb_of_ok {a : HttpAddress} (h : of endpoint keyPrefix = .ok a) :
    isWeb endpoint = true ∧ a = ⟨endpoint, keyPrefix⟩ := by
  rw [of] at h
  split at h
  · next hweb => exact ⟨hweb, (Except.ok.inj h).symm⟩
  · cases h

theorem joined (hs : TrimmedEnd endpoint base) (ht : TrimmedStart keyPrefix start) (k : CacheKey) :
    Joined [base, start ++ k.toHex] (objectUrl ⟨endpoint, keyPrefix⟩ k) := by
  have hname := ht.append_bare k.isSegment_toHex.head?
  exact ⟨joinUrl_eq hs hname, List.forall_mem_singleton.mpr hname.bare, List.forall_mem_singleton.mpr hs.bare⟩

theorem apart {a : HttpAddress} (h : of endpoint keyPrefix = .ok a) :
    Apart of objectUrl (fun base start k => [base, start ++ k.toHex]) endpoint keyPrefix a := by
  obtain ⟨hweb, rfl⟩ := isWeb_of_ok h
  refine .of_joined HttpAddress.mk (fun n p => ?_) joined fun base start k => ⟨base ++ "/" ++ start, ?_⟩
  · rw [of, if_pos (isWeb_append hweb _)]
  · exact String.append_assoc.symm

end HttpAddress

namespace BucketAddress

theorem isSegment_of_ok {endpoint : Option String} {a : BucketAddress}
    (h : of flavour endpoint bucket keyPrefix = .ok a) :
    IsSegment bucket ∧ a = ⟨flavour, joinUrl (endpoint.getD publicEndpoint) bucket, keyPrefix⟩ := by
  have hendpoint : flavour = .s3 → ∃ e, endpoint = some e := by
    rintro rfl
    cases endpoint with
    | none => cases h
    | some e => exact ⟨e, rfl⟩
  rw [of_eq hendpoint] at h
  split at h
  · cases h
  · next hbucket =>
    rw [not_or] at hbucket
    exact ⟨⟨hbucket.1, hbucket.2⟩, (Except.ok.inj h).symm⟩

theorem joined (hbucket : IsSegment bucket) (hs : TrimmedEnd endpoint base) (ht : TrimmedStart keyPrefix start)
    (k : CacheKey) : Joined [base, bucket, start ++ k.shard, k.toHex]
      (objectUrl ⟨flavour, joinUrl endpoint bucket, keyPrefix⟩ k) where
  eq := by
    have hsite : joinUrl endpoint bucket = base ++ "/" ++ bucket := joinUrl_eq hs (.of_bare hbucket.head?)
    have hname : TrimmedStart (keyPrefix ++ k.shard ++ "/" ++ k.toHex) (start ++ k.shard ++ "/" ++ k.toHex) := by
      have hshard := k.isSegment_shard.head?_append ("/" ++ k.toHex)
      simpa only [String.append_assoc] using ht.append_bare hshard
    calc joinUrl (joinUrl endpoint bucket) (keyPrefix ++ k.shard ++ "/" ++ k.toHex)
      _ = base ++ "/" ++ bucket ++ "/" ++ (start ++ k.shard ++ "/" ++ k.toHex) := by
        rw [hsite, joinUrl_eq (.of_bare (hbucket.getLast?_append _)) hname]
      _ = base ++ "/" ++ bucket ++ "/" ++ (start ++ k.shard) ++ "/" ++ k.toHex := by simp only [String.append_assoc]
  starts := by
    refine List.forall_mem_cons.mpr ⟨hbucket.head?, List.forall_mem_cons.mpr ⟨?_, ?_⟩⟩
    · exact (ht.append_bare k.isSegment_shard.head?).bare
    · exact List.forall_mem_singleton.mpr k.isSegment_toHex.head?
  ends := by
    refine List.forall_mem_cons.mpr ⟨hs.bare, List.forall_mem_cons.mpr ⟨hbucket.getLast?, ?_⟩⟩
    exact List.forall_mem_singleton.mpr (k.isSegment_shard.getLast?_append start)

theorem apart {endpoint : Option String} {a : BucketAddress} (h : of flavour endpoint bucket keyPrefix = .ok a) :
    Apart (fun e => of flavour (some e) bucket) objectUrl
      (fun base start k => [base, bucket, start ++ k.shard, k.toHex]) (endpoint.getD publicEndpoint) keyPrefix a := by
  obtain ⟨hbucket, rfl⟩ := isSegment_of_ok h
  have hof : ∀ e p, of flavour (some e) bucket p = .ok ⟨flavour, joinUrl e bucket, p⟩ := by
    intro e p
    rw [of_eq fun _ => ⟨e, rfl⟩, if_neg (not_or.mpr ⟨hbucket.ne_empty, hbucket.no_slash⟩)]
    rfl
  refine Apart.of_joined (fun e p => BucketAddress.mk flavour (joinUrl e bucket) p) (fun n p => hof _ p)
    (joined hbucket) fun base start k => ?_
  exact ⟨base ++ "/" ++ bucket ++ "/" ++ (start ++ k.shard) ++ "/", rfl⟩

end BucketAddress

/-- Objects lie right below the endpoint of a server, and below a bucket and the shard of the key in an object
store. Without an endpoint of its own, a store has the public one. -/
theorem keeps_apart :
    (∀ (endpoint keyPrefix : String) (a : HttpAddress), HttpAddress.of endpoint keyPrefix = .ok a →
      Apart HttpAddress.of HttpAddress.objectUrl (fun base start k => [base, start ++ k.toHex])
        endpoint keyPrefix a) ∧
    ∀ (flavour : BucketFlavour) (endpoint : Option String) (bucket keyPrefix : String) (a : BucketAddress),
      BucketAddress.of flavour endpoint bucket keyPrefix = .ok a →
      Apart (fun e => BucketAddress.of flavour (some e) bucket) BucketAddress.objectUrl
        (fun base start k => [base, bucket, start ++ k.shard, k.toHex])
        (endpoint.getD BucketAddress.publicEndpoint) keyPrefix a :=
  ⟨fun _ _ _ h => HttpAddress.apart h, fun _ _ _ _ _ h => BucketAddress.apart h⟩

def slashedServer : HttpAddress := ⟨"http://cache//", "//ci/"⟩
def slashedBucket : BucketAddress := ⟨.gcs, "https://storage.googleapis.com/art", "///"⟩

theorem keeps_apart_slashed :
    HttpAddress.of "http://cache//" "//ci/" = .ok slashedServer ∧
    BucketAddress.of .gcs none "art" "///" = .ok slashedBucket ∧
    Apart HttpAddress.of HttpAddress.objectUrl (fun base start k => [base, start ++ k.toHex])
      "http://cache//" "//ci/" slashedServer ∧
    Apart (fun e => BucketAddress.of .gcs (some e) "art") BucketAddress.objectUrl
      (fun base start k => [base, "art", start ++ k.shard, k.toHex])
      BucketAddress.publicEndpoint "///" slashedBucket := by
  have hserver : HttpAddress.of "http://cache//" "//ci/" = .ok slashedServer := by decide +kernel
  have hbucket : BucketAddress.of .gcs none "art" "///" = .ok slashedBucket := by decide +kernel
  have hpublic := keeps_apart.2 .gcs none "art" "///" slashedBucket hbucket
  rw [Option.getD_none] at hpublic
  exact ⟨hserver, hbucket, keeps_apart.1 "http://cache//" "//ci/" slashedServer hserver, hpublic⟩

end BuildCache
