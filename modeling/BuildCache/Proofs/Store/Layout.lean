import BuildCache.Proofs.Store.Opening

/-! # Directories that stores have worked in, and what opening makes of them -/
namespace BuildCache.Store

open KeyMap (fit)

variable {place root p : Path} {t t' : Tree} {capacity : Option Nat} {d : Disk} {s : Store}
  {order : KeyMap Nat} {k : CacheKey} {n : Nat}

namespace FilePlace

theorem not_directory (h : FilePlace root p) : ¬Directory root p := by
  intro hdir
  rcases h with h | ⟨k, name, -, rfl⟩ | ⟨k, rfl⟩
  · exact h.not_directory hdir
  · have hlen := hdir.length_le
    simp at hlen
  · have hlen := hdir.length_le
    simp at hlen

theorem inside (h : FilePlace root p) : Path.Inside root p := by
  rcases h with h | ⟨k, name, -, rfl⟩ | ⟨k, rfl⟩
  · exact ⟨h.root_prefix, ne_of_length_ne (by rw [h.length_eq]; omega)⟩
  · exact ⟨(Stowed.root_prefix_shard root k).trans (List.prefix_append _ _),
      ne_of_length_ne (by simp; omega)⟩
  · exact ⟨Stowed.root_prefix_artifact root k, ne_of_length_ne (by simp)⟩

end FilePlace

theorem not_scratch_artifactPath (root : Path) (k : CacheKey) : ¬Scratch root (artifactPath root k) := by
  rintro ⟨l, hl⟩
  exact not_tempIn (keyOfName?_artifact k) hl

/-- What there is after a call was there before, or is a file or a directory of the store. -/
theorem Makes.node?_cases (h : Makes root t t') {node : Node} (hn : t'.node? p = some node) :
    t.node? p = some node ∨ (∃ content, node = .file content) ∧ FilePlace root p ∨
      node = .directory ∧ (Path.Inside root p → Directory root p) := by
  cases h with
  | @write q content hq h =>
    rw [Tree.write_eq_ok h, Tree.node?_put _ hq.inside.ne_nil] at hn
    split at hn
    · next he =>
      cases hn
      exact .inr (.inl ⟨⟨content, rfl⟩, he ▸ hq⟩)
    · exact .inl hn
  | @removeFile q h =>
    rcases Tree.node?_removeFile h p with he | ⟨-, -, hnone⟩
    · exact .inl (he ▸ hn)
    · rw [hnone] at hn
      cases hn
  | @rename source q hq h =>
    obtain ⟨hsource, -, -⟩ := Tree.node?_of_rename h
    obtain ⟨content, -, rfl⟩ := Tree.rename_eq_ok h
    have hne : source ≠ [] := fun he => hsource (he ▸ Tree.node?_root t)
    rw [Tree.node?_put _ hq.inside.ne_nil, Tree.node?_erase _ hne] at hn
    split at hn
    · next he =>
      cases hn
      exact .inr (.inl ⟨⟨content, rfl⟩, he ▸ hq⟩)
    · split at hn
      · cases hn
      · exact .inl hn
  | @createDirectories q hq h =>
    rcases Tree.node?_createDirectories h p with he | ⟨-, hdir, taken, hpre, rfl⟩
    · exact .inl (he ▸ hn)
    · obtain rfl : Node.directory = node := Option.some.inj (hdir.symm.trans hn)
      exact .inr (.inr ⟨rfl, hq taken hpre⟩)

/-- Below the root of a place there are only the directories and files of stores, and no file is on
the way to it. -/
structure Laid (place : Path) (t : Tree) : Prop where
  tidy : t.Tidy place.resolve
  leads : Leads place.resolve (artifactsPath place)
  clear : ∀ q : Path, q <+: artifactsPath place → t.isFile q.resolve = false
  inside : ∀ p node, Path.Inside place.resolve p → t.node? p = some node →
    (∃ content, node = .file content) ∧ FilePlace place.resolve p ∨
      node = .directory ∧ Directory place.resolve p

namespace Laid

theorem makes (h : Laid place t) (hc : Makes place.resolve t t') : Laid place t' := by
  refine ⟨h.tidy.call hc.call, h.leads, fun q hq => ?_, fun p node hp hn => ?_⟩
  · apply Tree.isFile_eq_false.mpr
    intro content hf
    rcases hc.node?_cases hf with hold | ⟨-, hplace⟩ | ⟨hdir, -⟩
    · exact Tree.isFile_eq_false.mp (h.clear q hq) content hold
    · exact hplace.not_directory (h.leads q hq hplace.inside)
    · cases hdir
  · rcases hc.node?_cases hn with hold | hfile | ⟨hdir, hinside⟩
    · exact h.inside p node hp hold
    · exact .inl hfile
    · exact .inr ⟨hdir, hinside hp⟩

theorem does (h : Laid place t) (hc : Does place.resolve t t') : Laid place t' := by
  induction hc with
  | refl => exact h
  | tail _ hc ih => exact ih.makes hc

theorem artifact_cases (h : Laid place t) (k : CacheKey) :
    t.node? (artifactPath place.resolve k) = none ∨
      ∃ content, t.node? (artifactPath place.resolve k) = some (.file content) := by
  have hplace : FilePlace place.resolve (artifactPath place.resolve k) := .inr (.inr ⟨k, rfl⟩)
  rcases hn : t.node? (artifactPath place.resolve k) with _ | content | _
  · exact .inl rfl
  · exact .inr ⟨content, rfl⟩
  · rcases h.inside _ _ hplace.inside hn with ⟨⟨content, hfile⟩, -⟩ | ⟨-, hdir⟩
    · cases hfile
    · exact absurd hdir hplace.not_directory

theorem named_iff (h : Laid place t) :
    Named place.resolve t k n ↔ t.fileLength? (artifactPath place.resolve k) = some n := by
  constructor
  · rintro ⟨shard, -, name, node, hn, hname, hlen⟩
    rcases h.inside _ _ (inside_deep _ shard name) hn with ⟨⟨content, rfl⟩, hplace⟩ | ⟨-, hdir⟩
    · rcases hplace with hbeside | ⟨l, other, htemp, he⟩ | ⟨l, he⟩
      · have hlength := hbeside.length_eq
        simp at hlength
      · exact absurd ⟨other, htemp, he⟩ (not_tempIn hname)
      · obtain ⟨-, hlast⟩ := List.append_inj' he rfl
        rw [(List.cons.inj hlast).1] at hname
        obtain rfl : l = k := Option.some.inj ((keyOfName?_artifact l).symm.trans hname)
        exact Tree.fileLength?_eq_some.mpr ⟨content, he ▸ hn, hlen⟩
    · have hlength := hdir.length_le
      rw [length_deep] at hlength
      omega
  · exact named_of_file h.tidy

theorem temp_iff (h : Laid place t) {content : Bytes} (hf : t.node? p = some (.file content)) :
    Temp place.resolve t p ↔ Scratch place.resolve p := by
  constructor
  · rintro ⟨shard, -, htemp⟩
    have hinside : Path.Inside place.resolve p := by
      obtain ⟨name, -, rfl⟩ := htemp
      exact inside_deep _ shard name
    rcases h.inside _ _ hinside hf with ⟨-, hbeside | hscratch | ⟨k, rfl⟩⟩ | ⟨hdir, -⟩
    · obtain ⟨name, -, rfl⟩ := htemp
      have hlength := hbeside.length_eq
      simp at hlength
    · exact hscratch
    · exact absurd htemp (not_tempIn (keyOfName?_artifact k))
    · cases hdir
  · intro hp
    have hparent := h.tidy.parents p _ (FilePlace.inside (.inr (.inl hp))) hf
    obtain ⟨k, name, htemp, rfl⟩ := hp
    rw [List.dropLast_concat] at hparent
    exact ⟨k.shard, hparent, name, htemp, rfl⟩

theorem createDirectories (h : Laid place t) :
    ∃ t', t.createDirectories (artifactsPath place) = .ok t' ∧ Laid place t' := by
  obtain ⟨t', ht', -⟩ := Tree.createAlong_ok (t := t) [] (artifactsPath place) fun q hq _ => h.clear q hq
  exact ⟨t', ht', h.makes (.createDirectories h.leads ht')⟩

theorem of_vacant (h : Vacant place t) : Laid place t := by
  have hnone : ∀ p node, Path.Inside place.resolve p → t.node? p ≠ some node := fun p node hp hn => by
    rw [h.bare p hp.1 hp.2] at hn
    cases hn
  refine ⟨.of_bare fun e he hp => ?_, fun q hq hp => ?_, fun q hq => ?_, fun p node hp hn => ?_⟩
  · obtain ⟨node, hn⟩ := Tree.exists_node? he hp.ne_nil
    exact hnone e.1 node hp hn
  · rcases List.prefix_concat_iff.mp hq with rfl | hq
    · exact .inl (artifactsPath_resolve place)
    · exact absurd (h.direct q hq hp.1) hp.2
  · rcases List.prefix_concat_iff.mp hq with rfl | hq
    · apply Tree.isFile_eq_false.mpr
      intro content
      apply hnone
      rw [show (place ++ ["artifacts"]).resolve = artifactsPath place.resolve from artifactsPath_resolve place]
      exact ⟨Stowed.root_prefix_artifacts _, ne_of_length_ne (by simp)⟩
    · exact h.clear q hq
  · exact absurd hn (hnone p node hp)

end Laid

/-- The entries of a directory: the artifact files with their lengths, those of the index in its order and
then the others in the order of their keys. -/
structure Ranks (place : Path) (t : Tree) (order : KeyMap Nat) : Prop where
  once : order.Once
  finds : ∀ k, order.find? k = t.fileLength? (artifactPath place.resolve k)
  ordered : ∃ others, order = indexed order.find? (indexOf t place.resolve) ++ others ∧
    others.Pairwise (·.1 < ·.1)

namespace Ranks

theorem perm {order' : KeyMap Nat} (h : Ranks place t order) (h' : Ranks place t' order')
    (hsame : ∀ k, t'.fileLength? (artifactPath place.resolve k)
      = t.fileLength? (artifactPath place.resolve k)) : order'.Perm order :=
  h'.once.perm_of_find? h.once fun k => by rw [h.finds, h'.finds, hsame]

theorem eq {order' : KeyMap Nat} (h : Ranks place t order) (h' : Ranks place t order') : order' = order := by
  have hfind : order'.find? = order.find? := funext fun k => by rw [h.finds, h'.finds]
  have hperm := h.perm h' fun _ => rfl
  obtain ⟨others, horder, hothers⟩ := h.ordered
  obtain ⟨others', horder', hothers'⟩ := h'.ordered
  rw [hfind] at horder'
  rw [horder, horder'] at hperm
  obtain rfl : others' = others := by
    apply ((List.perm_append_left_iff _).mp hperm).eq_of_pairwise _ hothers' hothers
    intro e e' _ _ hlt hgt
    exact absurd hgt (List.lt_asymm hlt)
  exact horder'.trans horder.symm

end Ranks

namespace Laid

/-- What opening makes of a directory: it tracks what there is in the order of the index and of the
keys, as far as there is room. The other artifact files go, and so do the temporary ones among them. -/
structure Restores (place : Path) (capacity : Option Nat) (t : Tree) (order : KeyMap Nat) (s : Store) : Prop
    extends Ranks place t order where
  root_eq : s.root = place.resolve
  capacity_eq : s.capacity = capacity
  refusals : s.disk.refusals = []
  lists : s.recency.Lists (fit id capacity order)
  files : ∀ p content, s.disk.tree.node? p = some (.file content) ↔
    t.node? p = some (.file content) ∧ ¬Scratch place.resolve p ∧
      ∀ k, p = artifactPath place.resolve k → (fit id capacity order).find? k ≠ none
  laid : Laid place s.disk.tree

theorem Restores.congr (h : Restores place capacity t order s)
    (hfiles : ∀ p content, t'.node? p = some (.file content) ↔ t.node? p = some (.file content)) :
    Restores place capacity t' order s := by
  have hcontent : ∀ p, t'.content? p = t.content? p := fun p => by
    apply Option.ext
    intro content
    rw [Tree.content?_eq_some, Tree.content?_eq_some, hfiles]
  refine ⟨⟨h.once, fun k => ?_, ?_⟩, h.root_eq, h.capacity_eq, h.refusals, h.lists, fun p content => ?_,
    h.laid⟩
  · rw [h.finds, Tree.fileLength?, Tree.fileLength?, hcontent]
  · rw [indexOf, hcontent]
    exact h.ordered
  · rw [hfiles]
    exact h.files p content

theorem find?_eq_fileLength? (h : Laid place t) (hnotes : Notes (Named place.resolve t) order) (k : CacheKey) :
    order.find? k = t.fileLength? (artifactPath place.resolve k) := by
  cases hk : order.find? k with
  | some n => exact (h.named_iff.mp (hnotes.right k n hk)).symm
  | none =>
    cases hn : t.fileLength? (artifactPath place.resolve k) with
    | none => rfl
    | some n => exact absurd hk (hnotes.all k n (h.named_iff.mpr hn))

/-- What is deleted of a directory of stores are temporary files and the artifacts that are dropped. -/
theorem gone_iff (h : Laid place t) (hfinds : ∀ k, order.find? k = t.fileLength? (artifactPath place.resolve k))
    {content : Bytes} (hf : t.node? p = some (.file content)) :
    (Temp place.resolve t p ∨ ∃ k, Dropped capacity order k ∧ p = artifactPath place.resolve k) ↔
      Scratch place.resolve p ∨ ∃ k, p = artifactPath place.resolve k ∧ (fit id capacity order).find? k = none := by
  rw [h.temp_iff hf]
  refine or_congr_right (exists_congr fun k => ⟨fun hk => ⟨hk.2, hk.1.2⟩, fun hk => ⟨⟨?_, hk.2⟩, hk.1⟩⟩)
  rw [hfinds, ← hk.1, Tree.fileLength?, Tree.content?_eq_some.mpr hf]
  exact Option.some_ne_none _

theorem restores (h : Laid place t) (hs : Opening ⟨t, []⟩ place.resolve capacity order s) :
    Restores place capacity t order s := by
  have hfinds := h.find?_eq_fileLength? hs.notes
  refine ⟨⟨hs.notes.once, hfinds, ?_⟩, hs.root_eq, hs.capacity_eq, hs.swept.permits rfl, hs.lists,
    fun p content => ?_, h.does (.of_thins hs.swept.thins)⟩
  · obtain ⟨index, others, horder, hothers, hload⟩ := hs.ordered
    rw [← hload rfl]
    exact ⟨others, horder, hothers⟩
  · rw [hs.swept.file_iff rfl]
    refine and_congr_right fun hf => ?_
    rw [h.gone_iff hfinds hf, not_or, not_exists]
    simp only [not_and, ne_eq]

theorem opens (h : Laid place d.tree) (hd : d.refusals = []) (capacity : Option Nat) (process : Process) :
    ∃ s order, Store.open d place capacity process = (s.disk, .ok s) ∧
      Restores place capacity d.tree order s := by
  obtain ⟨t, hmake, ht⟩ := h.createDirectories
  obtain ⟨s, hopen⟩ := exists_open hd h.tidy hmake capacity process
  obtain ⟨made, order, hmade, hs⟩ := open_spec h.tidy hopen
  have hmade' : d.change (·.createDirectories (artifactsPath place)) = (⟨t, []⟩, .ok ()) :=
    Disk.change_ok hd hmake
  obtain rfl : made = ⟨t, []⟩ := congrArg Prod.fst (hmade.symm.trans hmade')
  refine ⟨s, order, hopen, (ht.restores hs).congr fun p content => ?_⟩
  exact (Tree.file_createDirectories hmake).symm

end Laid
end BuildCache.Store
