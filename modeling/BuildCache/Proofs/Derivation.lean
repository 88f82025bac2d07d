import Mathlib.Data.List.Nodup
import BuildCache.Derivation
import BuildCache.Proofs.NameMap

/-! # Derivations of keys: the preimage tells all that a key is computed from -/
namespace BuildCache

theorem CacheKey.ext_bytes {k l : CacheKey} (h : k.bytes = l.bytes) : k = l := by
  obtain ⟨⟨b, hb⟩⟩ := k
  obtain ⟨⟨c, hc⟩⟩ := l
  cases h
  rfl

theorem ContentHash.ext_bytes {h h' : ContentHash} (he : h.bytes = h'.bytes) : h = h' := by
  obtain ⟨⟨b, hb⟩⟩ := h
  obtain ⟨⟨c, hc⟩⟩ := h'
  cases he
  rfl

namespace Bytes

theorem ofText_injective {s t : String} (h : ofText s = ofText t) : s = t := by
  refine String.toByteArray_inj.mp (ByteArray.ext (Array.toList_inj.mp ?_))
  simpa only [ofText, String.toUTF8_eq_toByteArray] using h

theorem ofNat_injective {count m n : Nat} (hm : m < range count) (hn : n < range count)
    (h : ofNat count m = ofNat count n) :
    m = n := by rw [← toNat_ofNat hm, h, toNat_ofNat hn]

end Bytes

namespace Derivation

theorem Before.irrefl (a : String × CacheKey) : ¬Before a a := by
  rintro (h | ⟨-, h⟩)
  · exact String.lt_irrefl _ h
  · exact List.lt_irrefl _ h

theorem Before.trans {a b c : String × CacheKey} (h : Before a b) (h' : Before b c) : Before a c := by
  rcases h with h | ⟨he, hk⟩ <;> rcases h' with h' | ⟨he', hk'⟩
  · exact .inl (String.lt_trans h h')
  · exact .inl (he' ▸ h)
  · exact .inl (he ▸ h')
  · exact .inr ⟨he.trans he', List.lt_trans hk hk'⟩

theorem Before.of_not {a b : String × CacheKey} (h : ¬Before a b) (hne : a ≠ b) : Before b a := by
  obtain ⟨hn, hk⟩ := not_or.mp h
  by_cases he : a.1 = b.1
  · have hbytes : a.2.bytes ≠ b.2.bytes := fun hb => hne (Prod.ext he (CacheKey.ext_bytes hb))
    have hlt : ¬a.2.bytes < b.2.bytes := fun hlt => hk ⟨he, hlt⟩
    have hgt : b.2.bytes < a.2.bytes := Std.lt_of_le_of_ne hlt hbytes.symm
    exact .inr ⟨he.symm, hgt⟩
  · exact .inl (String.not_le.mp fun hle => he (String.le_antisymm hle (String.not_lt.mp hn)))

theorem mem_place {d e : String × CacheKey} {l : List (String × CacheKey)} : e ∈ place d l ↔
    e = d ∨ e ∈ l := by
  induction l with
  | nil => simp [place]
  | cons a rest ih =>
    simp only [place]
    split
    · simp
    · split
      · next hd => simp [hd]
      · simp only [List.mem_cons, ih, or_left_comm]

theorem sorted_place (d : String × CacheKey) {l : List (String × CacheKey)} (h : l.Pairwise Before) :
    (place d l).Pairwise Before := by
  induction l with
  | nil => simp [place]
  | cons a rest ih =>
    obtain ⟨ha, hr⟩ := List.pairwise_cons.mp h
    simp only [place]
    split
    · next hlt =>
      refine List.pairwise_cons.mpr ⟨fun e he => ?_, h⟩
      rcases List.mem_cons.mp he with rfl | he
      · exact hlt
      · exact hlt.trans (ha e he)
    · next hlt =>
      split
      · exact h
      · next hne =>
        refine List.pairwise_cons.mpr ⟨fun e he => ?_, ih hr⟩
        rcases mem_place.mp he with rfl | he
        · exact .of_not hlt hne
        · exact ha e he

@[simp] theorem mem_ordered {e : String × CacheKey} {l : List (String × CacheKey)} :
    e ∈ ordered l ↔ e ∈ l := by
  induction l with
  | nil => rfl
  | cons d l ih => rw [ordered, List.foldr_cons, mem_place, ← ordered, ih, List.mem_cons]

theorem sorted_ordered (l : List (String × CacheKey)) : (ordered l).Pairwise Before := by
  induction l with
  | nil => exact .nil
  | cons d l ih => exact sorted_place d ih

theorem ordered_congr {l l' : List (String × CacheKey)} (h : ∀ e, e ∈ l ↔ e ∈ l') :
    ordered l = ordered l' := by
  have hnodup : ∀ l, (ordered l).Nodup := fun l => by
    refine List.nodup_iff_pairwise_ne.mpr ((sorted_ordered l).imp fun {a b} hab he => ?_)
    exact Before.irrefl b (he ▸ hab)
  refine ((List.perm_ext_iff_of_nodup (hnodup l) (hnodup l')).mpr fun e => ?_).eq_of_pairwise
    (fun a b _ _ hab hba => absurd (hab.trans hba) (Before.irrefl a)) (sorted_ordered l)
    (sorted_ordered l')
  rw [mem_ordered, mem_ordered, h]

theorem length_place_le (d : String × CacheKey) (l : List (String × CacheKey)) :
    (place d l).length ≤ l.length + 1 := by
  induction l with
  | nil => exact Nat.le_refl _
  | cons a rest ih =>
    simp only [place]
    split
    · exact Nat.le_refl _
    · split
      · exact Nat.le_succ _
      · exact Nat.succ_le_succ ih

theorem length_ordered_le (l : List (String × CacheKey)) : (ordered l).length ≤ l.length := by
  induction l with
  | nil => exact Nat.le_refl _
  | cons d l ih => exact Nat.le_trans (length_place_le d _) (Nat.succ_le_succ ih)

def Countable (s : String) : Prop := (Bytes.ofText s).length < Bytes.range 8

instance (s : String) : Decidable (Countable s) := inferInstanceAs (Decidable (_ < _))

theorem counted_inj {s t : String} (hs : Countable s) (ht : Countable t) {x y : Bytes}
    (h : counted s ++ x = counted t ++ y) : s = t ∧ x = y := by
  simp only [counted, List.append_assoc] at h
  obtain ⟨hcount, hrest⟩ := List.append_inj h (by simp [count])
  have hlen := Bytes.ofNat_injective hs ht hcount
  obtain ⟨htext, hrest⟩ := List.append_inj hrest hlen
  exact ⟨Bytes.ofText_injective htext, hrest⟩

theorem dependencyBytes_inj {d e : String × CacheKey} (hd : Countable d.1)
    (he : Countable e.1) {x y : Bytes}
    (h : dependencyBytes d ++ x = dependencyBytes e ++ y) : d = e ∧ x = y := by
  simp only [dependencyBytes, List.append_assoc] at h
  obtain ⟨hname, hrest⟩ := counted_inj hd he h
  obtain ⟨hkey, hrest⟩ := List.append_inj hrest
    (by rw [CacheKey.bytes, d.2.digest.length_eq, CacheKey.bytes, e.2.digest.length_eq])
  exact ⟨Prod.ext hname (CacheKey.ext_bytes hkey), hrest⟩

theorem fieldBytes_inj {f g : String × String} (hf : Countable f.1 ∧ Countable f.2)
    (hg : Countable g.1 ∧ Countable g.2)
    {x y : Bytes} (h : fieldBytes f ++ x = fieldBytes g ++ y) : f = g ∧ x = y := by
  simp only [fieldBytes, List.append_assoc] at h
  obtain ⟨hname, hrest⟩ := counted_inj hf.1 hg.1 h
  obtain ⟨hvalue, hrest⟩ := counted_inj hf.2 hg.2 hrest
  exact ⟨Prod.ext hname hvalue, hrest⟩

/-- Items that are told apart one after another are told apart as lists of one length. -/
theorem flatMap_inj {α : Type} {enc : α → Bytes} {P : α → Prop}
    (henc : ∀ {a b}, P a → P b → ∀ {x y : Bytes}, enc a ++ x = enc b ++ y → a = b ∧ x = y) {l l' : List α}
    (hl : ∀ a ∈ l, P a) (hl' : ∀ a ∈ l', P a) (hlen : l.length = l'.length) {x y : Bytes}
    (h : l.flatMap enc ++ x = l'.flatMap enc ++ y) : l = l' ∧ x = y := by
  induction l generalizing l' with
  | nil =>
    obtain rfl := List.length_eq_zero_iff.mp hlen.symm
    exact ⟨rfl, h⟩
  | cons a l ih =>
    cases l' with
    | nil => cases hlen
    | cons b l' =>
      simp only [List.flatMap_cons, List.append_assoc] at h
      obtain ⟨rfl, hrest⟩ := henc (hl a List.mem_cons_self) (hl' b List.mem_cons_self) h
      obtain ⟨rfl, hxy⟩ := ih (fun a ha => hl a (List.mem_cons_of_mem _ ha))
        (fun a ha => hl' a (List.mem_cons_of_mem _ ha))
        (Nat.succ.inj hlen) hrest
      exact ⟨rfl, hxy⟩

end Derivation

structure Environment.Countable (env : Environment) : Prop where
  runtime : Derivation.Countable env.runtime
  compiler : Derivation.Countable env.compiler
  size : env.extra.size < Bytes.range 8
  extra : ∀ f ∈ env.extra.entries, Derivation.Countable f.1 ∧ Derivation.Countable f.2

instance (env : Environment) : Decidable env.Countable :=
  decidable_of_iff (Derivation.Countable env.runtime ∧ Derivation.Countable env.compiler ∧
      env.extra.size < Bytes.range 8 ∧
      ∀ f ∈ env.extra.entries, Derivation.Countable f.1 ∧ Derivation.Countable f.2)
    ⟨fun ⟨hr, hc, hs, he⟩ => ⟨hr, hc, hs, he⟩, fun ⟨hr, hc, hs, he⟩ => ⟨hr, hc, hs, he⟩⟩

namespace Derivation

/-- Dependencies whose number and names can be counted, in such an environment. -/
structure Fits (d : Derivation) : Prop where
  size : d.dependencies.length < Bytes.range 8
  names : ∀ e ∈ d.dependencies, Countable e.1
  environment : d.environment.Countable

instance (d : Derivation) : Decidable d.Fits :=
  decidable_of_iff (d.dependencies.length < Bytes.range 8 ∧ (∀ e ∈ d.dependencies, Countable e.1) ∧
      d.environment.Countable)
    ⟨fun ⟨hs, hn, he⟩ => ⟨hs, hn, he⟩, fun ⟨hs, hn, he⟩ => ⟨hs, hn, he⟩⟩

theorem preimage_inj {d e : Derivation} (hd : d.Fits) (he : e.Fits) (h : d.preimage = e.preimage) :
    d.content = e.content ∧ (∀ x, x ∈ d.dependencies ↔ x ∈ e.dependencies) ∧
      d.environment = e.environment := by
  simp only [preimage, List.append_assoc] at h
  have hcontent : d.content.bytes.length = e.content.bytes.length := by
    rw [ContentHash.bytes, d.content.digest.length_eq, ContentHash.bytes, e.content.digest.length_eq]
  obtain ⟨hcontent, h⟩ := List.append_inj (List.append_cancel_left h) hcontent
  obtain ⟨hcount, h⟩ := List.append_inj h (by simp [count])
  have hlen : (ordered d.dependencies).length = (ordered e.dependencies).length :=
    Bytes.ofNat_injective (Nat.lt_of_le_of_lt (length_ordered_le _) hd.size)
      (Nat.lt_of_le_of_lt (length_ordered_le _) he.size) hcount
  obtain ⟨hdeps, h⟩ := flatMap_inj (P := fun a => Countable a.1) dependencyBytes_inj
    (fun a ha => hd.names a (mem_ordered.mp ha)) (fun a ha => he.names a (mem_ordered.mp ha)) hlen h
  obtain ⟨hruntime, h⟩ := counted_inj hd.environment.runtime he.environment.runtime h
  obtain ⟨hcompiler, h⟩ := counted_inj hd.environment.compiler he.environment.compiler h
  obtain ⟨hcount, h⟩ := List.append_inj h (by simp [count])
  have hsize := Bytes.ofNat_injective hd.environment.size he.environment.size hcount
  rw [← List.append_nil (List.flatMap fieldBytes _),
    ← List.append_nil (List.flatMap fieldBytes e.environment.extra.entries)] at h
  have hextra := (flatMap_inj (P := fun f => Countable f.1 ∧
    Countable f.2) fieldBytes_inj hd.environment.extra he.environment.extra hsize h).1
  refine ⟨ContentHash.ext_bytes hcontent, fun x => ?_, ?_⟩
  · rw [← mem_ordered, hdeps, mem_ordered]
  · obtain ⟨content, dependencies, runtime, compiler, entries, sorted⟩ := d
    obtain ⟨content', dependencies', runtime', compiler', entries', sorted'⟩ := e
    cases hruntime
    cases hcompiler
    cases hextra
    rfl

/-- The same content, the same set of dependencies with their keys, and the same environment. -/
structure Same (d e : Derivation) : Prop where
  content : d.content = e.content
  dependencies : ∀ x, x ∈ d.dependencies ↔ x ∈ e.dependencies
  environment : d.environment = e.environment

theorem Same.preimage_eq {d e : Derivation} (h : Same d e) : d.preimage = e.preimage := by
  simp only [preimage, h.content, ordered_congr h.dependencies, h.environment]

theorem key_eq_iff {d e : Derivation} :
    d.key = e.key ↔ Blake3.hash d.preimage = Blake3.hash e.preimage := by
  simp only [key, Digest.hash, CacheKey.mk.injEq, Digest.mk.injEq]

/-- Order and repetition of the dependencies do not show in what is hashed for a key, and all else
does, as long as lengths and counts fit 64 bits. So derivations with one key are the same, unless
two byte strings collide. -/
theorem preimage_tells (d e : Derivation) :
    (Same d e → d.preimage = e.preimage ∧ d.key = e.key) ∧
    (d.Fits → e.Fits →
      (d.preimage = e.preimage ↔ Same d e) ∧
      (d.key = e.key ↔ Same d e ∨
        d.preimage ≠ e.preimage ∧ Blake3.hash d.preimage = Blake3.hash e.preimage)) := by
  refine ⟨fun h => ⟨h.preimage_eq, by rw [key, key, h.preimage_eq]⟩, fun hd he => ?_⟩
  have hiff : d.preimage = e.preimage ↔ Same d e := by
    refine ⟨fun h => ?_, Same.preimage_eq⟩
    obtain ⟨hcontent, hdeps, henv⟩ := preimage_inj hd he h
    exact ⟨hcontent, hdeps, henv⟩
  refine ⟨hiff, ?_⟩
  rw [key_eq_iff, ← hiff]
  by_cases h : d.preimage = e.preimage
  · simp [h]
  · simp [h]

/-- Two dependencies, one of them without a name. -/
def nameless : Derivation where
  content := .empty
  dependencies := [("é", ⟨⟨List.replicate 32 1, rfl⟩⟩), ("", ⟨⟨List.replicate 32 2, rfl⟩⟩)]
  environment := (Environment.ofVersions "OTP-27" "0.1.0").withField "opt" "2"

/-- The same dependencies in the other order, one of them twice. -/
def repeated : Derivation :=
  { nameless with dependencies := nameless.dependencies.reverse ++ nameless.dependencies.take 1 }

/-- A digit has gone over from one version to the other. -/
def shifted : Derivation :=
  { nameless with environment := (Environment.ofVersions "OTP-270" ".1.0").withField "opt" "2" }

theorem preimage_tells_shifted : nameless.Fits ∧ repeated.Fits ∧ shifted.Fits ∧
    nameless.preimage = repeated.preimage ∧ nameless.key = repeated.key ∧
    nameless.preimage ≠ shifted.preimage := by
  have hfits : nameless.Fits := by decide +kernel
  have hrepeated : repeated.Fits := by decide +kernel
  have hshifted : shifted.Fits := by decide +kernel
  have hsame : Same nameless repeated := ⟨rfl, fun x => by
    simp only [repeated, nameless, List.reverse_cons, List.reverse_nil, List.nil_append,
      List.take_succ_cons, List.take_zero, List.cons_append, List.mem_cons, List.not_mem_nil]
    tauto, rfl⟩
  obtain ⟨hpreimage, hkey⟩ := (preimage_tells nameless repeated).1 hsame
  refine ⟨hfits, hrepeated, hshifted, hpreimage, hkey, fun h => ?_⟩
  have hruntime := ((preimage_tells nameless shifted).2 hfits hshifted).1.mp h
  exact absurd (congrArg Environment.runtime hruntime.environment) (by decide)

end Derivation
end BuildCache
