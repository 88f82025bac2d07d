import BuildCache.Proofs.Disk
import Mathlib.Logic.Relation

/-! # Tidy directories: every place in them is bound once and has a parent, and all calls keep it so -/
namespace BuildCache

/-- A place inside of a directory, at any depth. -/
def Path.Inside (root p : Path) : Prop := root <+: p ∧ p ≠ root

theorem Path.Inside.ne_nil {root p : Path} (h : Path.Inside root p) : p ≠ [] := fun hp => by
  subst hp
  exact h.2 (List.prefix_nil.mp h.1).symm

namespace Tree

variable {root p q : Path} {t t' : Tree}

inductive Call (t t' : Tree) : Prop
  | write {p : Path} {content : Bytes} (h : t.write p content = .ok t')
  | removeFile {p : Path} (h : t.removeFile p = .ok t')
  | rename {p q : Path} (h : t.rename p q = .ok t')
  | createDirectories {p : Path} (h : t.createDirectories p = .ok t')

/-- What comes of a tree by any number of calls. -/
def Becomes : Tree → Tree → Prop := Relation.ReflTransGen Call

theorem parent_eq_ok (h : t.parent p = .ok ()) : t.node? p.dropLast = some .directory := by
  simp only [parent] at h
  split at h
  · next hd => exact lookup_eq_ok.mp hd
  · cases h
  · cases h

theorem node?_of_write {content : Bytes} (h : t.write p content = .ok t') :
    t.node? p.dropLast = some .directory ∧ t.node? p ≠ some .directory := by
  simp only [write, bind, Except.bind] at h
  split at h
  · cases h
  · next hp =>
    split at h
    · cases h
    · next hd => exact ⟨parent_eq_ok hp, by simpa [isDirectory] using hd⟩

theorem node?_of_removeFile (h : t.removeFile p = .ok t') : t.node? p ≠ some .directory := by
  intro hd
  rw [removeFile, lookup_eq_ok.mpr hd] at h
  cases h

theorem node?_of_rename (h : t.rename p q = .ok t') : t.node? p ≠ some .directory ∧
    t.node? q.dropLast = some .directory ∧ t.node? q ≠ some .directory := by
  simp only [rename, bind, Except.bind] at h
  split at h
  · cases h
  · next content hread =>
    split at h
    · cases h
    · next hparent =>
      split at h
      · cases h
      · next hd =>
        refine ⟨?_, parent_eq_ok hparent, by simpa [isDirectory] using hd⟩
        rw [read_eq_ok.mp hread]
        simp

/-- After directories were made on a way, there is one at each place on it. -/
theorem node?_of_createAlong {done rest : Path} (h : t.createAlong done rest = .ok t') {taken : Path}
    (hpre : taken <+: rest) (hne : taken ≠ []) :
    t'.node? (taken.foldl Path.step done) = some .directory := by
  induction rest generalizing done t taken with
  | nil => exact absurd (List.prefix_nil.mp hpre) hne
  | cons name rest ih =>
    obtain ⟨first, taken, rfl⟩ := List.exists_cons_of_ne_nil hne
    obtain ⟨rfl, hrest⟩ := List.cons_prefix_cons.mp hpre
    -- the first place has a directory from the first step on
    have hgo : ∀ u : Tree, u.node? (Path.step done first) = some .directory →
        u.createAlong (Path.step done first) rest = .ok t' →
        t'.node? ((first :: taken).foldl Path.step done) = some .directory := fun u hu h => by
      by_cases htaken : taken = []
      · subst htaken
        rcases node?_createAlong h (Path.step done first) with hq | ⟨hnone, -, -⟩
        · exact hq.trans hu
        · rw [hu] at hnone
          cases hnone
      · exact ih h hrest htaken
    simp only [createAlong] at h
    split at h
    · next hnone =>
      have hnil : Path.step done first ≠ [] := fun he => by
        rw [he, node?_root] at hnone
        cases hnone
      exact hgo _ (by rw [node?_put _ hnil, if_pos rfl]) h
    · next hdir => exact hgo t hdir h
    · cases h

theorem node?_of_createDirectories (h : t.createDirectories p = .ok t') (hq : q <+: p) :
    t'.node? q.resolve = some .directory := by
  by_cases hnil : q = []
  · subst hnil
    exact node?_root t'
  · exact node?_of_createAlong h hq hnil

private theorem directory_put (h : t.node? q = some .directory) (hp : t.node? p ≠ some .directory)
    (n : Node) : (t.put p n).node? q = some .directory := by
  have hne : p ≠ [] := fun he => hp (he ▸ node?_root t)
  rw [node?_put _ hne, if_neg fun he : p = q => hp (he ▸ h)]
  exact h

private theorem directory_erase (h : t.node? q = some .directory) (hp : t.node? p ≠ some .directory) :
    (t.erase p).node? q = some .directory := by
  have hne : p ≠ [] := fun he => hp (he ▸ node?_root t)
  rw [node?_erase _ hne, if_neg fun he : p = q => hp (he ▸ h)]
  exact h

private theorem not_directory_erase (hp : t.node? p ≠ some .directory) (hq : t.node? q ≠ some .directory) :
    (t.erase p).node? q ≠ some .directory := by
  have hne : p ≠ [] := fun he => hp (he ▸ node?_root t)
  rw [node?_erase _ hne]
  split
  · intro h
    cases h
  · exact hq

theorem Call.directory (h : Call t t') (hq : t.node? q = some .directory) :
    t'.node? q = some .directory := by
  cases h with
  | write h =>
    obtain ⟨-, hp⟩ := node?_of_write h
    rw [write_eq_ok h]
    exact directory_put hq hp _
  | removeFile h =>
    rw [removeFile_eq_ok h]
    exact directory_erase hq (node?_of_removeFile h)
  | rename h =>
    obtain ⟨hsource, -, htarget⟩ := node?_of_rename h
    obtain ⟨content, -, rfl⟩ := rename_eq_ok h
    exact directory_put (directory_erase hq hsource) (not_directory_erase hsource htarget) _
  | createDirectories h =>
    rcases node?_createAlong h q with he | ⟨hnone, -, -⟩
    · exact he.trans hq
    · rw [hq] at hnone
      cases hnone

theorem Becomes.directory (h : Becomes t t') (hq : t.node? q = some .directory) :
    t'.node? q = some .directory := by
  induction h with
  | refl => exact hq
  | tail _ hc ih => exact hc.directory ih

/-- What comes of a tree by removing files. -/
def Thins : Tree → Tree → Prop := Relation.ReflTransGen fun t t' => ∃ p, t.removeFile p = .ok t'

theorem node?_removeFile (h : t.removeFile p = .ok t') (q : Path) :
    t'.node? q = t.node? q ∨ p = q ∧ t.isFile q = true ∧ t'.node? q = none := by
  simp only [removeFile] at h
  split at h
  · next content hlookup =>
    cases h
    have hfile := lookup_eq_ok.mp hlookup
    have hne : p ≠ [] := fun he => by
      rw [he, node?_root] at hfile
      cases hfile
    rw [node?_erase _ hne]
    split
    · next he =>
      subst he
      exact .inr ⟨rfl, by rw [isFile, hfile], rfl⟩
    · exact .inl rfl
  · cases h
  · cases h

theorem isFile_erase (hp : t.node? p ≠ some .directory) : (t.erase p).isFile p = false := by
  have hne : p ≠ [] := fun he => hp (he ▸ node?_root t)
  rw [isFile, node?_erase _ hne, if_pos rfl]

namespace Thins

theorem becomes (h : Thins t t') : Becomes t t' := by
  induction h with
  | refl => exact .refl
  | tail _ hc ih =>
    obtain ⟨p, hc⟩ := hc
    exact ih.tail (.removeFile hc)

theorem node?_cases (h : Thins t t') (q : Path) :
    t'.node? q = t.node? q ∨ t.isFile q = true ∧ t'.node? q = none := by
  induction h with
  | refl => exact .inl rfl
  | tail h hc ih =>
    obtain ⟨p, hc⟩ := hc
    rcases node?_removeFile hc q with he | ⟨-, hfile, hnone⟩
    · rw [he]
      exact ih
    · rcases ih with hsame | ⟨-, hgone⟩
      · refine .inr ⟨?_, hnone⟩
        rw [isFile, ← hsame]
        exact hfile
      · rw [isFile, hgone] at hfile
        cases hfile

theorem node?_eq_some (h : Thins t t') {n : Node} (hn : t'.node? q = some n) : t.node? q = some n := by
  rcases h.node?_cases q with he | ⟨-, hnone⟩
  · exact he ▸ hn
  · rw [hnone] at hn
    cases hn

end Thins

/-- Each place inside a directory is bound once. -/
def BoundOnce (root : Path) (t : Tree) : Prop := t.Pairwise fun e e' => e.1 = e'.1 → ¬Path.Inside root e.1

/-- Each place inside a directory is bound once, and stands in a directory itself. -/
structure Tidy (root : Path) (t : Tree) : Prop where
  once : t.BoundOnce root
  parents : ∀ p n, Path.Inside root p → t.node? p = some n → t.node? p.dropLast = some .directory

namespace Tidy

theorem node?_of_mem (h : Tidy root t) {e : Path × Node} (he : e ∈ t) (hp : Path.Inside root e.1) :
    t.node? e.1 = some e.2 := by
  have honce := h.once
  rw [node?_eq _ hp.ne_nil]
  clear h
  induction t with
  | nil => cases he
  | cons a rest ih =>
    obtain ⟨ha, hrest⟩ := List.pairwise_cons.mp honce
    rw [List.find?_cons]
    by_cases hae : a.1 = e.1
    · rcases List.mem_cons.mp he with rfl | he
      · simp
      · exact absurd (hae ▸ hp) (ha e he hae)
    · have he : e ∈ rest := (List.mem_cons.mp he).resolve_left fun h => hae (h ▸ rfl)
      have hd : decide (a.1 = e.1) = false := decide_eq_false hae
      rw [hd]
      exact ih he hrest

theorem mem_iff (h : Tidy root t) (hp : Path.Inside root p) {n : Node} :
    (p, n) ∈ t ↔ t.node? p = some n := by
  refine ⟨fun he => h.node?_of_mem he hp, fun hn => ?_⟩
  rw [node?_eq _ hp.ne_nil] at hn
  obtain ⟨e, he, rfl⟩ := Option.map_eq_some_iff.mp hn
  have hkey : e.1 = p := by simpa using List.find?_some he
  exact hkey ▸ List.mem_of_find?_eq_some he

theorem of_bare (h : ∀ e ∈ t, ¬Path.Inside root e.1) : Tidy root t where
  once := List.pairwise_iff_forall_sublist.mpr fun {e _} hs _ => h e (hs.subset List.mem_cons_self)
  parents p n hp hn := by
    rw [node?_eq _ hp.ne_nil] at hn
    obtain ⟨e, he, -⟩ := Option.map_eq_some_iff.mp hn
    have hkey : e.1 = p := by simpa using List.find?_some he
    exact absurd (hkey ▸ hp) (h e (List.mem_of_find?_eq_some he))

/-- A list of different places is tidy if the parent of each is a directory. -/
theorem of_listed (honce : (t.map (·.1)).Nodup)
    (hparents : ∀ e ∈ t, t.node? e.1.dropLast = some .directory) : Tidy root t where
  once := (List.pairwise_map.mp honce).imp fun hne he => absurd he hne
  parents p n hp hn := by
    rw [node?_eq _ hp.ne_nil] at hn
    obtain ⟨e, he, -⟩ := Option.map_eq_some_iff.mp hn
    have hkey : e.1 = p := by simpa using List.find?_some he
    exact hkey ▸ hparents e (List.mem_of_find?_eq_some he)

private theorem once_put (h : t.BoundOnce root) (p : Path) (n : Node) : (t.put p n).BoundOnce root := by
  refine List.pairwise_cons.mpr ⟨fun e he heq => ?_, h.filter _⟩
  have hne : e.1 ≠ p := by simpa using (List.mem_filter.mp he).2
  exact absurd heq.symm hne

theorem put (h : Tidy root t) {content : Bytes} (hdir : t.node? p.dropLast = some .directory)
    (hp : t.node? p ≠ some .directory) : Tidy root (t.put p (.file content)) := by
  have hne : p ≠ [] := fun he => hp (he ▸ node?_root t)
  refine ⟨once_put h.once p _, fun q n hq hn => directory_put ?_ hp _⟩
  rw [node?_put _ hne] at hn
  split at hn
  · next he => exact he ▸ hdir
  · exact h.parents q n hq hn

theorem erase (h : Tidy root t) (hp : t.node? p ≠ some .directory) : Tidy root (t.erase p) := by
  have hne : p ≠ [] := fun he => hp (he ▸ node?_root t)
  refine ⟨h.once.filter _, fun q n hq hn => directory_erase ?_ hp⟩
  rw [node?_erase _ hne] at hn
  split at hn
  · cases hn
  · exact h.parents q n hq hn

private theorem once_createAlong {done rest : Path} (honce : t.BoundOnce root)
    (h : t.createAlong done rest = .ok t') : t'.BoundOnce root := by
  induction rest generalizing done t with
  | nil =>
    cases h
    exact honce
  | cons name rest ih =>
    simp only [createAlong] at h
    split at h
    · exact ih (once_put honce _ _) h
    · exact ih honce h
    · cases h

theorem createDirectories (h : Tidy root t) (hc : t.createDirectories p = .ok t') : Tidy root t' := by
  refine ⟨once_createAlong h.once hc, fun q n hq hn => ?_⟩
  rcases node?_createAlong hc q with he | ⟨-, -, taken, -, hpre, rfl⟩
  · rw [he] at hn
    exact Call.directory (.createDirectories hc) (h.parents q n hq hn)
  · obtain ⟨earlier, hearlier, he⟩ := Path.exists_resolve_eq (p := taken) (List.dropLast_prefix _)
    have hway := node?_of_createDirectories hc (hearlier.trans (List.isPrefixOf_iff_prefix.mp hpre))
    rw [he] at hway
    exact hway

theorem call (h : Tidy root t) (hc : Call t t') : Tidy root t' := by
  cases hc with
  | write hc =>
    obtain ⟨hdir, hp⟩ := node?_of_write hc
    rw [write_eq_ok hc]
    exact h.put hdir hp
  | removeFile hc =>
    rw [removeFile_eq_ok hc]
    exact h.erase (node?_of_removeFile hc)
  | rename hc =>
    obtain ⟨hsource, hdir, htarget⟩ := node?_of_rename hc
    obtain ⟨content, -, rfl⟩ := rename_eq_ok hc
    exact (h.erase hsource).put (directory_erase hdir hsource) (not_directory_erase hsource htarget)
  | createDirectories hc => exact h.createDirectories hc

theorem becomes (h : Tidy root t) (hb : Becomes t t') : Tidy root t' := by
  induction hb with
  | refl => exact h
  | tail _ hc ih => exact ih.call hc

end Tidy

theorem mem_entries {name : String} {n : Node} :
    (name, n) ∈ t.filterMap (entryName? p) ↔ (p ++ [name], n) ∈ t := by
  rw [List.mem_filterMap]
  constructor
  · rintro ⟨e, he, hentry⟩
    simp only [entryName?] at hentry
    split at hentry
    · next last hlast =>
      split at hentry
      · next hparent =>
        obtain ⟨directory, hpath⟩ := List.getLast?_eq_some_iff.mp hlast
        rw [hpath, List.dropLast_concat] at hparent
        cases hentry
        rw [← hparent, ← hpath]
        exact he
      · cases hentry
    · cases hentry
  · intro he
    exact ⟨_, he, by simp [entryName?]⟩

theorem Tidy.list_eq (h : Tidy root t) (hp : root <+: p) (hdir : t.node? p = some .directory) :
    ∃ entries, t.list p = .ok entries ∧
      ∀ name n, (name, n) ∈ entries ↔ t.node? (p ++ [name]) = some n := by
  refine ⟨_, by rw [list, lookup_eq_ok.mpr hdir], fun name n => ?_⟩
  have hinside : Path.Inside root (p ++ [name]) := by
    refine ⟨hp.trans (List.prefix_append _ _), fun he => ?_⟩
    have hlen := congrArg List.length he
    have hle := hp.length_le
    rw [List.length_append, List.length_singleton] at hlen
    omega
  rw [(List.mergeSort_perm _ _).mem_iff, mem_entries, h.mem_iff hinside]

end Tree

namespace Disk

variable {gone gone' : Path → Prop} {d d' d'' : Disk}

theorem thins_removeFile (d : Disk) (p : Path) : d.tree.Thins (d.change (·.removeFile p)).1.tree := by
  rcases d.change_cases (·.removeFile p) with ⟨e, -, htree⟩ | ⟨t, ht, -, htree⟩
  · rw [htree]
    exact .refl
  · rw [htree]
    exact .single ⟨p, ht⟩

theorem look_eq_ok {α : Type} {action : Tree → Except Fault α} {a : α} (h : d.look action = (d', .ok a)) :
    action d.tree = .ok a ∧ d'.tree = d.tree ∧ (d.refusals = [] → d'.refusals = []) := by
  refine ⟨look_ok (congrArg Prod.snd h), ?_, fun hd => ?_⟩
  · rw [← d.tree_look action, h]
  · rw [look_eq hd, Prod.mk.injEq] at h
    exact h.1 ▸ hd

/-- Files at some places may be gone, and are if no call is refused; the rest is as it was. -/
structure Swept (gone : Path → Prop) (d d' : Disk) : Prop where
  thins : d.tree.Thins d'.tree
  kept : ∀ q, ¬gone q → d'.tree.node? q = d.tree.node? q
  permits : d.refusals = [] → d'.refusals = []
  cleared : d.refusals = [] → ∀ q, gone q → d'.tree.isFile q = false

namespace Swept

theorem of_tree (htree : d'.tree = d.tree) (hd : d.refusals = [] → d'.refusals = []) :
    Swept (fun _ => False) d d' :=
  ⟨htree ▸ .refl, fun _ _ => by rw [htree], hd, fun _ _ h => h.elim⟩

theorem refl (d : Disk) : Swept (fun _ => False) d d := .of_tree rfl id

theorem file_iff (h : Swept gone d d') (hd : d.refusals = []) {q : Path} {content : Bytes} :
    d'.tree.node? q = some (.file content) ↔ d.tree.node? q = some (.file content) ∧ ¬gone q := by
  constructor
  · intro hf
    exact ⟨h.thins.node?_eq_some hf, fun hq => Tree.isFile_eq_false.mp (h.cleared hd q hq) content hf⟩
  · rintro ⟨hf, hq⟩
    rw [h.kept q hq, hf]

theorem isFile_eq_false (h : Swept gone d d') {q : Path} (hq : d.tree.isFile q = false) :
    d'.tree.isFile q = false := by
  apply Tree.isFile_eq_false.mpr
  intro content hf
  exact Tree.isFile_eq_false.mp hq content (h.thins.node?_eq_some hf)

theorem trans (h : Swept gone d d') (h' : Swept gone' d' d'') :
    Swept (fun q => gone q ∨ gone' q) d d'' := by
  refine ⟨h.thins.trans h'.thins, fun q hq => ?_, fun hd => h'.permits (h.permits hd), fun hd q hq => ?_⟩
  · rw [h'.kept q fun h => hq (.inr h), h.kept q fun h => hq (.inl h)]
  · rcases hq with hq | hq
    · exact h'.isFile_eq_false (h.cleared hd q hq)
    · exact h'.cleared (h.permits hd) q hq

theorem mono (h : Swept gone d d') (hgone : ∀ q, gone q → gone' q)
    (hother : ∀ q, gone' q → d.tree.isFile q = true → gone q) : Swept gone' d d' := by
  refine ⟨h.thins, fun q hq => h.kept q fun hg => hq (hgone q hg), h.permits, fun hd q hq => ?_⟩
  cases hfile : d.tree.isFile q with
  | true => exact h.cleared hd q (hother q hq hfile)
  | false => exact h.isFile_eq_false hfile

end Swept

theorem swept_removeFile (d : Disk) (p : Path) : Swept (p = ·) d (d.change (·.removeFile p)).1 := by
  refine ⟨d.thins_removeFile p, fun q hq => ?_, fun hd => ?_, ?_⟩
  · rcases d.change_cases (·.removeFile p) with ⟨e, -, htree⟩ | ⟨t, ht, -, htree⟩
    · rw [htree]
    · rw [htree]
      exact (Tree.node?_removeFile ht q).resolve_right fun h => hq h.1
  · cases hr : d.tree.removeFile p with
    | ok t => rw [change_ok hd hr]
    | error e =>
      rw [change_error hd hr]
      exact hd
  · rintro hd q rfl
    cases hr : d.tree.removeFile p with
    | ok t =>
      rw [change_ok hd hr, Tree.removeFile_eq_ok hr]
      exact Tree.isFile_erase (Tree.node?_of_removeFile hr)
    | error e =>
      rw [change_error hd hr]
      apply Tree.isFile_eq_false.mpr
      intro content hf
      rw [Tree.removeFile_ok hf] at hr
      cases hr

end Disk
end BuildCache
