import Mathlib.Data.List.TakeDrop
import BuildCache.Proofs.Artifact
import BuildCache.Proofs.Disk
import BuildCache.Store

/-! # Artifact files: where they are, and that nothing but a stored artifact makes one -/
namespace BuildCache.Store

theorem artifactPath_eq (root : Path) (k : CacheKey) : artifactPath root k = shardPath root k ++
    [k.toHex ++ ".art"] := rfl

theorem tempPath_eq (s : Store) (k : CacheKey) : s.tempPath k = shardPath s.root k
    ++ [k.toHex ++ "." ++ toString s.process.number ++ "." ++ toString s.nextTemp ++ ".tmp"] := rfl

theorem artifactPath_ne_nil (root : Path) (k : CacheKey) : artifactPath root k ≠ [] :=
    by simp [artifactPath]

theorem tempPath_ne_nil (s : Store) (k : CacheKey) : s.tempPath k ≠ [] := by simp [tempPath]

theorem artifactPath_inj {root : Path} {k l : CacheKey} (h : artifactPath root k = artifactPath root l) :
    k = l := by
  rw [artifactPath_eq, artifactPath_eq] at h
  have hname := (List.append_inj' h rfl).2
  rw [List.cons.injEq] at hname
  exact CacheKey.toHex_injective (Text.append_inj_of_length rfl hname.1).1

theorem tempPath_ne_artifactPath (s : Store) (k l : CacheKey) : s.tempPath k ≠ artifactPath s.root l := by
  intro h
  rw [artifactPath_eq, tempPath_eq] at h
  have hname := (List.append_inj' h rfl).2
  rw [List.cons.injEq] at hname
  have hlen : ".tmp".length = ".art".length := by decide
  have hext := (Text.append_inj_of_length hlen hname.1).2
  exact absurd hext (by decide)

theorem tempPath_inj {s : Store} {k l : CacheKey} {m n : Nat}
    (h : tempPath { s with nextTemp := m } k = tempPath { s with nextTemp := n } l) : m = n := by
  rw [tempPath_eq, tempPath_eq] at h
  have hname := (List.append_inj' h rfl).2
  rw [List.cons.injEq, String.append_left_inj] at hname
  let stem (k : CacheKey) := k.toHex ++ "." ++ toString s.process.number ++ "."
  have hlist : (stem k).toList ++ (toString m).toList = (stem l).toList ++ (toString n).toList := by
    rw [← String.toList_append, ← String.toList_append]
    exact congrArg String.toList hname.1
  have hlength : (stem k).toList.length = (stem l).toList.length := by
    simp only [stem, String.length_toList, String.length_append, CacheKey.length_toHex]
  have hdigits : Nat.toDigits 10 m = Nat.toDigits 10 n := by simpa using (List.append_inj hlist hlength).2
  rw [← Nat.ofDigitChars_ten_toDigits (n := m), hdigits, Nat.ofDigitChars_ten_toDigits]

theorem root_ne_artifactPath (root : Path) (name : String) (k : CacheKey) :
    root ++ [name] ≠ artifactPath root k := by
  intro h
  have := congrArg List.length h
  simp [artifactPath, shardPath, artifactsPath] at this

theorem splitName?_ofList {stem ext : List Char} (hstem : stem ≠ []) (hext : '.' ∉ ext) :
    splitName? (String.ofList (stem ++ '.' :: ext)) = some (String.ofList stem, String.ofList ext) := by
  have hspan : (stem ++ '.' :: ext).reverse.span (· ≠ '.') = (ext.reverse, '.' :: stem.reverse) := by
    have hall : ∀ c ∈ ext.reverse, decide (c ≠ '.') = true := fun c hc =>
      decide_eq_true fun h => hext (h ▸ List.mem_reverse.mp hc)
    rw [List.span_eq_takeWhile_dropWhile, List.reverse_append, List.reverse_cons, List.append_assoc]
    rw [List.takeWhile_append_of_pos hall, List.dropWhile_append_of_pos hall]
    simp
  obtain ⟨c, rest, hrest⟩ := List.exists_cons_of_ne_nil (mt List.reverse_eq_nil_iff.mp hstem)
  simp only [splitName?, String.toList_ofList, hspan, hrest]
  rw [← hrest, List.reverse_reverse, List.reverse_reverse]

theorem keyOfName?_artifact (k : CacheKey) : keyOfName? (k.toHex ++ ".art") = some k := by
  have hname : k.toHex ++ ".art" = String.ofList (k.toHex.toList ++ '.' :: ['a', 'r', 't']) := by
    rw [String.ofList_append, String.ofList_toList]
  rw [keyOfName?, hname, splitName?_ofList (mt String.toList_eq_nil_iff.mp k.toHex_ne_empty) (by decide)]
  simp [CacheKey.parse_toHex, Except.toOption]

theorem isTemp_append {stem : String} (h : stem ≠ "") : isTemp (stem ++ ".tmp") = true := by
  have hname : stem ++ ".tmp" = String.ofList (stem.toList ++ '.' :: ['t', 'm', 'p']) := by
    rw [String.ofList_append, String.ofList_toList]
  rw [isTemp, hname, splitName?_ofList (mt String.toList_eq_nil_iff.mp h) (by decide)]
  rfl

theorem isTemp_eq_false {name : String} {k : CacheKey} (h : keyOfName? name = some k) :
    isTemp name = false := by
  obtain ⟨⟨stem, ext⟩, hparts, hkey⟩ := Option.bind_eq_some_iff.mp h
  have hext : ext = "art" := by
    by_contra hne
    have hkey : (if ext = "art" then (CacheKey.parse stem).toOption else none) = some k := hkey
    rw [if_neg hne] at hkey
    cases hkey
  simp [isTemp, hparts, hext]

/-- Every artifact file of a store is there before, with the same content. -/
structure Shrinks (s t : Store) : Prop where
  root : t.root = s.root
  files : ∀ k content, t.disk.tree.node? (artifactPath s.root k) = some (.file content) →
    s.disk.tree.node? (artifactPath s.root k) = some (.file content)

namespace Shrinks

variable {s t u : Store}

theorem refl (s : Store) : Shrinks s s := ⟨rfl, fun _ _ h => h⟩

theorem trans (h : Shrinks s t) (h' : Shrinks t u) : Shrinks s u := by
  refine ⟨h'.root.trans h.root, fun k content hf => h.files k content ?_⟩
  have := h'.files k content
  rw [h.root] at this
  exact this hf

theorem of_tree (hroot : t.root = s.root) (htree : t.disk.tree = s.disk.tree) : Shrinks s t :=
  ⟨hroot, fun _ _ h => htree ▸ h⟩

theorem of_change {action : Tree → Except Fault Tree} (hroot : t.root = s.root)
    (hdisk : t.disk.tree = (s.disk.change action).1.tree)
    (h : ∀ tree, action s.disk.tree = .ok tree → ∀ k content,
      tree.node? (artifactPath s.root k) = some (.file content) →
        s.disk.tree.node? (artifactPath s.root k) = some (.file content)) : Shrinks s t :=
  ⟨hroot, fun k content hf => Disk.file_change (fun tree ht => h tree ht k content) (hdisk ▸ hf)⟩

private theorem erase_files {tree : Tree} {p q : Path} (hp : p ≠ []) {content : Bytes}
    (h : (tree.erase p).node? q = some (.file content)) : tree.node? q = some (.file content) := by
  rw [Tree.node?_erase _ hp] at h
  split at h
  · cases h
  · exact h

theorem deleteFile (s : Store) (k : CacheKey) : Shrinks s (s.deleteFile k).1 := by
  have htree : (s.deleteFile k).1.disk = (s.disk.change (·.removeFile (s.pathOf k))).1 ∧
    (s.deleteFile k).1.root = s.root := by
    simp only [Store.deleteFile]
    split <;> next h => rw [h]; exact ⟨rfl, rfl⟩
  apply of_change htree.2 (congrArg Disk.tree htree.1)
  intro tree ht l content hf
  rw [Tree.removeFile_eq_ok ht] at hf
  exact erase_files (artifactPath_ne_nil _ _) hf

theorem evictFile (s : Store) (k : CacheKey) : Shrinks s (s.evictFile k) := by
  have h := deleteFile s k
  simp only [Store.evictFile]
  split
  · next t _ ht =>
    rw [ht] at h
    exact h.trans (of_tree rfl rfl)
  · next t _ ht =>
    rw [ht] at h
    exact h

theorem evict (s : Store) : Shrinks s s.evict := by
  have hfold : ∀ (gone : List CacheKey) (s : Store), Shrinks s (gone.foldl Store.evictFile s) := by
    intro gone
    induction gone with
    | nil => exact refl
    | cons k gone ih => exact fun s => (evictFile s k).trans (ih _)
  simp only [Store.evict]
  split
  · exact refl s
  · next capacity _ =>
    have hsame : Shrinks s { s with recency := (s.recency.evictOver capacity).1 } := of_tree rfl rfl
    exact hsame.trans (hfold _ _)

theorem touch (s : Store) (k : CacheKey) : Shrinks s (s.touch k) := of_tree rfl rfl

theorem pin (s : Store) (k : CacheKey) : Shrinks s (s.pin k) := of_tree rfl rfl

theorem readFile (s : Store) (k : CacheKey) : Shrinks s (s.readFile k).1 := by
  have htree := s.disk.tree_look (·.read (s.pathOf k))
  simp only [Store.readFile]
  split <;>
  · next d _ hd =>
    rw [hd] at htree
    exact of_tree rfl htree

theorem settle (s : Store) (k : CacheKey) (reading : Reading) : Shrinks s (s.settle k reading).1 := by
  simp only [Store.settle]
  cases reading with
  | found a size => exact of_tree rfl rfl
  | absent => exact of_tree rfl rfl
  | corrupt kind =>
    have hsame : Shrinks s { s with
        recency := (s.recency.unpin k).erase k, counters.corruptions := s.counters.corruptions + 1 } :=
          of_tree rfl rfl
    exact hsame.trans (deleteFile _ k)
  | failed e => exact of_tree rfl rfl
  | crashed c => exact refl s

theorem get (s : Store) (k : CacheKey) : Shrinks s (s.get k).1 := by
  exact (pin s k).trans ((readFile _ k).trans (settle _ k _))

theorem makeShard (s : Store) (k : CacheKey) : Shrinks s (s.makeShard k).1 := by
  have htree : (s.makeShard k).1.disk = (s.disk.change (·.createDirectories (shardPath s.root k))).1
      ∧ (s.makeShard k).1.root = s.root := by
    simp only [Store.makeShard]
    split <;> next h => rw [h]; exact ⟨rfl, rfl⟩
  apply of_change htree.2 (congrArg Disk.tree htree.1)
  intro tree ht l content hf
  exact (Tree.file_createDirectories ht).mp hf

theorem writeTemp (s : Store) (a : Artifact) : Shrinks s (s.writeTemp a).1 := by
  have htree : (s.writeTemp a).1.disk = (s.disk.change (·.write (s.tempPath a.key) a.encode)).1
      ∧ (s.writeTemp a).1.root = s.root := by
    simp only [Store.writeTemp]
    split <;> next h => rw [h]; exact ⟨rfl, rfl⟩
  apply of_change htree.2 (congrArg Disk.tree htree.1)
  intro tree ht l content hf
  rw [Tree.write_eq_ok ht, Tree.node?_put _ (tempPath_ne_nil _ _),
    if_neg (tempPath_ne_artifactPath _ _ _)] at hf
  exact hf

theorem discard (s : Store) {temp : Path} (ht : temp ≠ []) : Shrinks s (s.discard temp) := by
  refine of_change rfl rfl fun tree htree l content hf => ?_
  rw [Tree.removeFile_eq_ok htree] at hf
  exact erase_files ht hf

private theorem rename_files {tree tree' : Tree} {p q : Path} (hp : p ≠ []) (hq : q ≠ [])
    (h : tree.rename p q = .ok tree') {r : Path} (hr : q ≠ r) {content : Bytes}
    (hf : tree'.node? r = some (.file content)) : tree.node? r = some (.file content) := by
  obtain ⟨moved, -, rfl⟩ := Tree.rename_eq_ok h
  rw [Tree.node?_put _ hq, if_neg hr] at hf
  exact erase_files hp hf

theorem saveIndex (s : Store) : Shrinks s s.saveIndex.1 := by
  refine ⟨rfl, fun k content hf => ?_⟩
  have hne : ∀ name, s.root ++ [name] ≠ artifactPath s.root k := fun name => root_ne_artifactPath _ _ _
  have hnil : ∀ name, s.root ++ [name] ≠ [] := fun name => by simp
  let temp := s.root ++ [s!"{Index.fileName}.{s.process.number}.tmp"]
  let text := Bytes.ofText (Index.ofEntries s.recency.toList).render
  -- the three calls are undone one after another, the last one first
  have hdirs : ∀ d : Disk, (d.change (·.createDirectories s.root)).1.tree.node? (artifactPath s.root k)
      = some (.file content) → d.tree.node? (artifactPath s.root k) = some (.file content) := fun d =>
    Disk.file_change fun tree ht => (Tree.file_createDirectories ht).mp
  have hwrite : ∀ d : Disk, (d.change (·.write temp text)).1.tree.node? (artifactPath s.root k)
      = some (.file content) → d.tree.node? (artifactPath s.root k) = some (.file content) := fun d =>
    Disk.file_change fun tree ht hf => by
      rwa [Tree.write_eq_ok ht, Tree.node?_put _ (hnil _), if_neg (hne _)] at hf
  have hrename : ∀ d : Disk, (d.change (·.rename temp (s.root ++ [Index.fileName]))).1.tree.node?
    (artifactPath s.root k)
      = some (.file content) → d.tree.node? (artifactPath s.root k) = some (.file content) := fun d =>
    Disk.file_change fun tree ht => rename_files (hnil _) (hnil _) ht (hne _)
  have hdirs := hdirs s.disk
  simp only [Store.saveIndex, Index.save] at hf
  revert hf hdirs
  rcases s.disk.change (·.createDirectories s.root) with ⟨d, e | _⟩
  · exact fun hf h => h hf
  · have hwrite := hwrite d
    simp only
    revert hwrite
    rcases d.change (·.write temp text) with ⟨d', e | _⟩
    · exact fun hw hf h => h (hw hf)
    · have hrename := hrename d'
      simp only
      revert hrename
      rcases d'.change (·.rename temp (s.root ++ [Index.fileName])) with ⟨d'', e | _⟩
      · exact fun hr hw hf h => h (hw (hr hf))
      · exact fun hr hw hf h => h (hw (hr hf))

end Shrinks
end BuildCache.Store
