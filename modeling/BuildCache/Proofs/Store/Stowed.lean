import BuildCache.Proofs.KeyMap
import BuildCache.Proofs.Store.Files

/-! # Directories that hold the files of some entries and nothing else, while no call fails -/
namespace BuildCache.Store

@[simp] theorem length_artifactsPath (root : Path) : (artifactsPath root).length = root.length + 1 := by
  simp [artifactsPath]

@[simp] theorem length_shardPath (root : Path) (k : CacheKey) :
    (shardPath root k).length = root.length + 2 := by
  simp [shardPath]

@[simp] theorem length_artifactPath (root : Path) (k : CacheKey) :
    (artifactPath root k).length = root.length + 3 := by
  simp [artifactPath]

@[simp] theorem length_tempPath (s : Store) (k : CacheKey) :
    (s.tempPath k).length = s.root.length + 3 := by
  simp [tempPath]

theorem ne_of_length_ne {p q : Path} (h : p.length ≠ q.length) : p ≠ q :=
    fun e => h (congrArg List.length e)

theorem prefix_shardPath_iff {root q : Path} {k : CacheKey} :
    q <+: shardPath root k ↔ q = shardPath root k ∨ q <+: artifactsPath root := List.prefix_concat_iff

theorem prefix_artifactPath_iff {root q : Path} {k : CacheKey} :
    q <+: artifactPath root k ↔ q = artifactPath root k ∨ q <+: shardPath root k := List.prefix_concat_iff

theorem shard_ne (k : CacheKey) : k.shard ≠ ".." := by
  intro h
  have hdot : '.' ∉ k.shard.toList := Hex.not_mem_encode (by decide) _
  rw [h] at hdot
  exact hdot (by decide)

theorem straight_shardPath {root : Path} (h : root.Straight) (k : CacheKey) :
    (shardPath root k).Straight := by
  have hartifacts : (artifactsPath root).Straight := h.append_singleton (Path.step_of_ne (by decide) root)
  exact hartifacts.append_singleton (Path.step_of_ne (shard_ne k) _)

/-- The directories of a store. -/
def Directory (root p : Path) : Prop := p = artifactsPath root ∨ ∃ k, p = shardPath root k

theorem Directory.length_le {root p : Path} (h : Directory root p) : p.length ≤ root.length + 2 := by
  rcases h with rfl | ⟨k, rfl⟩
  · simp
  · simp

/-- The places of files beside the directory of the artifacts, of the index above all. -/
def Beside (root p : Path) : Prop := ∃ name, name ≠ "artifacts" ∧ p = root ++ [name]

theorem beside_index (root : Path) : Beside root (root ++ [Index.fileName]) := ⟨_, by decide, rfl⟩

theorem beside_tempIndex (root : Path) (writer : Nat) :
    Beside root (root ++ [s!"{Index.fileName}.{writer}.tmp"]) := by
  refine ⟨_, fun h => ?_, rfl⟩
  have h : "index.json" ++ "." ++ toString writer ++ ".tmp" = "artifacts" := h
  have hfirst := congrArg (·.toList.head?) h
  simp at hfirst

namespace Beside

variable {root p : Path}

@[simp] theorem length_eq (h : Beside root p) : p.length = root.length + 1 := by
  obtain ⟨name, -, rfl⟩ := h
  simp

theorem root_prefix (h : Beside root p) : root <+: p := by
  obtain ⟨name, -, rfl⟩ := h
  exact List.prefix_append _ _

theorem dropLast_eq (h : Beside root p) : p.dropLast = root := by
  obtain ⟨name, -, rfl⟩ := h
  exact List.dropLast_concat

theorem not_prefix (h : Beside root p) : ¬p <+: artifactsPath root := by
  intro hpre
  have he := hpre.eq_of_length (by rw [h.length_eq, length_artifactsPath])
  obtain ⟨name, hname, rfl⟩ := h
  exact hname (List.cons.inj (List.append_cancel_left he)).1

theorem not_directory (h : Beside root p) : ¬Directory root p := by
  rintro (rfl | ⟨k, rfl⟩)
  · exact h.not_prefix (List.prefix_refl _)
  · have hlen := h.length_eq
    rw [length_shardPath] at hlen
    omega

theorem ne_artifactPath (h : Beside root p) (k : CacheKey) : p ≠ artifactPath root k := by
  rintro rfl
  have hlen := h.length_eq
  rw [length_artifactPath] at hlen
  omega

end Beside

/-- Below a root there are the artifact files of some entries, their directories, and perhaps files
beside them. -/
structure Stowed (root : Path) (entries : KeyMap Artifact) (t : Tree) : Prop where
  straight : root.Straight
  way : ∀ q, q <+: artifactsPath root → t.node? q = some .directory
  files : ∀ k, t.node? (artifactPath root k) = (entries.find? k).map fun a => .file a.encode
  inside : ∀ p n, root <+: p → p ≠ root → t.node? p = some n →
    n = .directory ∧ Directory root p ∨
      (∃ content, n = .file content) ∧ (Beside root p ∨ ∃ k, p = artifactPath root k)

namespace Stowed

variable {root : Path} {entries : KeyMap Artifact} {t t' : Tree} {k : CacheKey} {a : Artifact}

theorem root_prefix_artifacts (root : Path) : root <+: artifactsPath root := List.prefix_append _ _

theorem root_prefix_shard (root : Path) (k : CacheKey) : root <+: shardPath root k :=
  (root_prefix_artifacts root).trans (List.prefix_append _ _)

theorem root_prefix_artifact (root : Path) (k : CacheKey) : root <+: artifactPath root k :=
  (root_prefix_shard root k).trans (List.prefix_append _ _)

/-- A tree with the same nodes below the root and on the way to it holds the same entries. -/
theorem congr (h : Stowed root entries t) (hsame : ∀ q, t'.node? q = t.node? q) :
    Stowed root entries t' := by
  refine ⟨h.straight, fun q hq => ?_, fun k => ?_, fun p n => ?_⟩
  · rw [hsame, h.way q hq]
  · rw [hsame, h.files]
  · rw [hsame]
    exact h.inside p n

theorem of_find? (h : Stowed root entries t) {others : KeyMap Artifact}
    (hsame : ∀ k, others.find? k = entries.find? k) : Stowed root others t :=
  ⟨h.straight, h.way, fun k => by rw [h.files, hsame], h.inside⟩

theorem isFile_eq (h : Stowed root entries t) (k : CacheKey) :
    t.isFile (artifactPath root k) = (entries.find? k).isSome := by
  rw [Tree.isFile, h.files]
  cases entries.find? k <;> rfl

theorem clear (h : Stowed root entries t) {q : Path} (hq : q <+: shardPath root k) :
    t.isFile q = false := by
  apply Tree.isFile_eq_false.mpr
  intro content hf
  rcases prefix_shardPath_iff.mp hq with rfl | hq
  · have hne : shardPath root k ≠ root := ne_of_length_ne (by simp)
    rcases h.inside _ _ (root_prefix_shard root k) hne hf with ⟨hdir, -⟩ | ⟨-, he | ⟨l, he⟩⟩
    · cases hdir
    · exact he.not_directory (.inr ⟨k, rfl⟩)
    · exact ne_of_length_ne (by simp) he
  · rw [h.way q hq] at hf
    cases hf

theorem lookup_notFound (h : Stowed root entries t) (hk : entries.find? k = none) :
    t.lookup (artifactPath root k) = .error .notFound := by
  have hnone : t.node? (artifactPath root k) = none := by rw [h.files, hk]; rfl
  apply Tree.lookup_notFound hnone
  intro q hq
  rcases prefix_artifactPath_iff.mp hq with rfl | hq
  · rw [h.isFile_eq, hk]
    rfl
  · exact h.clear hq

theorem file_iff (h : Stowed root entries t) (honce : entries.Once) {p : Path}
    (hp : artifactsPath root <+: p) {content : Bytes} : t.node? p = some (.file content) ↔
      ∃ e ∈ entries, p = artifactPath root e.1 ∧ content = e.2.encode := by
  constructor
  · intro hf
    have hlen := hp.length_le
    rw [length_artifactsPath] at hlen
    have hne : p ≠ root := ne_of_length_ne (by omega)
    rcases h.inside p _ ((root_prefix_artifacts root).trans hp) hne hf with
      ⟨hdir, -⟩ | ⟨-, hbeside | ⟨k, rfl⟩⟩
    · cases hdir
    · have he := hp.eq_of_length (by rw [hbeside.length_eq, length_artifactsPath])
      exact absurd (he ▸ List.prefix_refl _) hbeside.not_prefix
    · rw [h.files] at hf
      obtain ⟨a, ha, he⟩ := Option.map_eq_some_iff.mp hf
      cases he
      exact ⟨(k, a), KeyMap.mem_of_find? ha, rfl, rfl⟩
  · rintro ⟨⟨k, a⟩, he, rfl, rfl⟩
    rw [h.files, honce.find?_eq_some.mpr he]
    rfl

theorem erase (h : Stowed root entries t) (k : CacheKey) :
    Stowed root (entries.erase k) (t.erase (artifactPath root k)) := by
  have hnil := artifactPath_ne_nil root k
  refine ⟨h.straight, fun q hq => ?_, fun l => ?_, fun p n hp hne hn => ?_⟩
  · have hlen := hq.length_le
    rw [Tree.node?_erase _ hnil, if_neg (ne_of_length_ne (by simp at hlen ⊢; omega)), h.way q hq]
  · rw [Tree.node?_erase _ hnil, KeyMap.find?_erase]
    by_cases hkl : k = l
    · simp [hkl]
    · rw [if_neg fun he => hkl (artifactPath_inj he), if_neg hkl, h.files]
  · rw [Tree.node?_erase _ hnil] at hn
    split at hn
    · cases hn
    · exact h.inside p n hp hne hn

theorem makeShard (h : Stowed root entries t) (k : CacheKey) :
    ∃ t', t.createDirectories (shardPath root k) = .ok t' ∧ Stowed root entries t' ∧
      t'.node? (shardPath root k) = some .directory := by
  obtain ⟨t', ht', hnode⟩ := Tree.createDirectories_ok (straight_shardPath h.straight k) fun q hq =>
    h.clear hq
  refine ⟨t', ht', ⟨h.straight, fun q hq => ?_, fun l => ?_, fun p n hp hne hn => ?_⟩, ?_⟩
  · rw [hnode, if_pos (prefix_shardPath_iff.mpr (.inr hq))]
  · have hnot : ¬artifactPath root l <+: shardPath root k := fun hpre => by
      have := hpre.length_le
      simp at this
    rw [hnode, if_neg hnot, h.files]
  · rw [hnode] at hn
    split at hn
    · next hpre =>
      cases hn
      rcases prefix_shardPath_iff.mp hpre with he | hpre
      · exact .inl ⟨rfl, .inr ⟨k, he⟩⟩
      · rcases List.prefix_concat_iff.mp hpre with he | hpre
        · exact .inl ⟨rfl, .inl he⟩
        · exact absurd (hpre.eq_of_length_le hp.length_le) hne
    · exact h.inside p n hp hne hn
  · rw [hnode, if_pos (List.prefix_refl _)]

theorem publish (h : Stowed root entries t) (hk : entries.find? k = none) {temp : Path}
    (htemp : t.node? temp = none) {a : Artifact}
    (hnode : ∀ q, t'.node? q = if artifactPath root k = q then some (.file a.encode)
      else if temp = q then none else t.node? q) : Stowed root (entries ++ [(k, a)]) t' := by
  have hnode : ∀ q, t'.node? q = if artifactPath root k = q then some (.file a.encode) else t.node? q :=
    fun q => by
    by_cases hq : temp = q
    · rw [hnode, if_pos hq, ← hq, htemp]
    · rw [hnode, if_neg hq]
  refine ⟨h.straight, fun q hq => ?_, fun l => ?_, fun p n hp hne hn => ?_⟩
  · have hlen := hq.length_le
    rw [hnode, if_neg (ne_of_length_ne (by simp at hlen ⊢; omega)), h.way q hq]
  · rw [hnode, KeyMap.find?_append_singleton]
    by_cases hkl : k = l
    · subst hkl
      simp [hk]
    · rw [if_neg fun he => hkl (artifactPath_inj he), if_neg hkl, h.files, Option.or_none]
  · rw [hnode] at hn
    split at hn
    · next hpath =>
      cases hn
      exact .inr ⟨⟨_, rfl⟩, .inr ⟨k, hpath.symm⟩⟩
    · exact h.inside p n hp hne hn

theorem root_ok (h : Stowed root entries t) :
    ∃ t', t.createDirectories root = .ok t' ∧ ∀ q, t'.node? q = t.node? q := by
  have hway : ∀ q, q <+: root → t.node? q = some .directory :=
    fun q hq => h.way q (hq.trans (root_prefix_artifacts root))
  have hstraight : root.Straight := fun q hq => h.straight q hq
  obtain ⟨t', ht', hnode⟩ := Tree.createDirectories_ok hstraight fun q hq => by
    rw [Tree.isFile, hway q hq]
  refine ⟨t', ht', fun q => ?_⟩
  rw [hnode]
  split
  · next hq => rw [hway q hq]
  · rfl

theorem node?_beside (h : Stowed root entries t) {p : Path} (hp : Beside root p) :
    t.node? p ≠ some .directory := by
  intro hdir
  have hne : p ≠ root := ne_of_length_ne (by rw [hp.length_eq]; omega)
  rcases h.inside p _ hp.root_prefix hne hdir with ⟨-, he⟩ | ⟨⟨content, hfile⟩, -⟩
  · exact hp.not_directory he
  · cases hfile

theorem saveIndex (h : Stowed root entries t) {place temp : Path} (hplace : Beside root place)
    (htemp : Beside root temp) {content : Bytes}
    (hnode : ∀ q, t'.node? q = if place = q then some (.file content)
      else if temp = q then none else t.node? q) : Stowed root entries t' := by
  refine ⟨h.straight, fun q hq => ?_, fun k => ?_, fun p n hp hne hn => ?_⟩
  · rw [hnode, if_neg, if_neg, h.way q hq]
    · rintro rfl
      exact htemp.not_prefix hq
    · rintro rfl
      exact hplace.not_prefix hq
  · rw [hnode, if_neg (hplace.ne_artifactPath k), if_neg (htemp.ne_artifactPath k), h.files]
  · rw [hnode] at hn
    split at hn
    · next he =>
      cases hn
      exact .inr ⟨⟨content, rfl⟩, .inl (he ▸ hplace)⟩
    · split at hn
      · cases hn
      · exact h.inside p n hp hne hn

end Stowed

/-- Nothing is below a directory, and the way to it leads neither through a file nor through a place
below it. -/
structure Vacant (root : Path) (t : Tree) : Prop where
  bare : ∀ p, root.resolve <+: p → p ≠ root.resolve → t.node? p = none
  clear : ∀ q : Path, q <+: root → t.isFile q.resolve = false
  direct : ∀ q : Path, q <+: root → root.resolve <+: q.resolve → q.resolve = root.resolve

theorem Vacant.of_directory {root : Path} {t : Tree}
    (hway : ∀ q : Path, q <+: root → t.node? q.resolve = some .directory)
    (hbare : ∀ p, root.resolve <+: p → p ≠ root.resolve → t.node? p = none) : Vacant root t := by
  refine ⟨hbare, fun q hq => ?_, fun q hq hpre => ?_⟩
  · rw [Tree.isFile, hway q hq]
  · by_contra hne
    have hnone := hbare q.resolve hpre hne
    rw [hway q hq] at hnone
    cases hnone

/-- On a vacant place, opening makes the directory of the artifacts and those on the way to it. -/
theorem Vacant.createDirectories {root : Path} {t : Tree} (h : Vacant root t) :
    ∃ t', t.createDirectories (artifactsPath root) = .ok t' ∧ Stowed root.resolve [] t' ∧
      ∀ p n, root.resolve <+: p → p ≠ root.resolve → t'.node? p = some n →
        p = artifactsPath root.resolve := by
  have hplace : Path.resolve (artifactsPath root) = artifactsPath root.resolve := by
    rw [artifactsPath, Path.resolve_append_singleton, Path.step_of_ne (by decide)]
    rfl
  have hbelow : artifactsPath root.resolve ≠ root.resolve := ne_of_length_ne (by simp)
  obtain ⟨t', ht', hdirs⟩ := Tree.createAlong_ok (t := t) [] (artifactsPath root) fun q hq _ => by
    rcases List.prefix_concat_iff.mp hq with rfl | hq
    · apply Tree.isFile_eq_false.mpr
      intro content hf
      have hf : t.node? (Path.resolve (artifactsPath root)) = some (.file content) := hf
      rw [hplace, h.bare _ (Stowed.root_prefix_artifacts _) hbelow] at hf
      cases hf
    · exact h.clear q hq
  have honly : ∀ p n, root.resolve <+: p → p ≠ root.resolve → t'.node? p = some n →
      p = artifactsPath root.resolve ∧ n = .directory := fun p n hp hne hn => by
    rcases Tree.node?_createAlong ht' p with he | ⟨-, hdir, q, -, hpre, rfl⟩
    · rw [he, h.bare p hp hne] at hn
      cases hn
    · obtain rfl : Node.directory = n := Option.some.inj (hdir.symm.trans hn)
      rcases List.prefix_concat_iff.mp (List.isPrefixOf_iff_prefix.mp hpre) with rfl | hpre
      · exact ⟨hplace, rfl⟩
      · exact absurd (h.direct q hpre hp) hne
  refine ⟨t', ht', ⟨Path.straight_resolve root, fun q hq => ?_, fun k => ?_, fun p n hp hne hn => ?_⟩,
    fun p n hp hne hn => (honly p n hp hne hn).1⟩
  · by_cases hnil : q = []
    · rw [hnil, Tree.node?_root]
    · rw [← hplace] at hq
      obtain ⟨taken, htaken, rfl⟩ := Path.exists_resolve_eq hq
      exact hdirs taken htaken fun he => hnil (by rw [he]; rfl)
  · cases hn : t'.node? (artifactPath root.resolve k) with
    | none => rfl
    | some n =>
      have he := (honly _ n (Stowed.root_prefix_artifact _ k) (ne_of_length_ne (by simp)) hn).1
      exact absurd he (ne_of_length_ne (by simp))
  · obtain ⟨hp, rfl⟩ := honly p n hp hne hn
    exact .inl ⟨rfl, .inl hp⟩

end BuildCache.Store
