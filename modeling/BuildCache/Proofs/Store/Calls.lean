import BuildCache.Proofs.Disk.Tidy
import BuildCache.Proofs.Store.Lru
import BuildCache.Proofs.Store.Stowed

/-! # All that a store does to the tree it does by calls, most of which only remove files -/
namespace BuildCache.Store

variable {s t : Store} {root : Path} {k : CacheKey} {a : Artifact}

theorem deleteFile_fst (s : Store) (k : CacheKey) :
    (s.deleteFile k).1 = { s with disk := (s.disk.change (·.removeFile (s.pathOf k))).1 } := by
  simp only [deleteFile]
  split <;> next h => rw [h]

theorem thins_deleteFile (s : Store) (k : CacheKey) : s.disk.tree.Thins (s.deleteFile k).1.disk.tree := by
  rw [deleteFile_fst]
  exact s.disk.thins_removeFile _

theorem thins_evictFile (s : Store) (k : CacheKey) : s.disk.tree.Thins (s.evictFile k).disk.tree := by
  have h := thins_deleteFile s k
  simp only [evictFile]
  split <;>
  · next t _ ht =>
    rw [ht] at h
    exact h

theorem thins_evict (s : Store) : s.disk.tree.Thins s.evict.disk.tree := by
  have hfold : ∀ (gone : List CacheKey) (s : Store),
      s.disk.tree.Thins (gone.foldl evictFile s).disk.tree := fun gone => by
    induction gone with
    | nil => exact fun s => .refl
    | cons k gone ih => exact fun s => (thins_evictFile s k).trans (ih _)
  simp only [evict]
  split
  · exact .refl
  · next capacity _ => exact hfold _ { s with recency := (s.recency.evictOver capacity).1 }

theorem readFile_fst (s : Store) (k : CacheKey) :
    (s.readFile k).1 = { s with disk := (s.disk.look (·.read (s.pathOf k))).1 } := by
  simp only [readFile]
  split <;> next h => rw [h]

theorem tree_readFile (s : Store) (k : CacheKey) : (s.readFile k).1.disk.tree = s.disk.tree := by
  rw [readFile_fst]
  exact s.disk.tree_look _

theorem thins_settle (s : Store) (k : CacheKey) (reading : Reading) :
    s.disk.tree.Thins (s.settle k reading).1.disk.tree := by
  cases reading with
  | found | absent | failed | crashed => exact .refl
  | corrupt kind => exact thins_deleteFile { s with
      recency := (s.recency.unpin k).erase k, counters.corruptions := s.counters.corruptions + 1 } k

theorem thins_get (s : Store) (k : CacheKey) : s.disk.tree.Thins (s.get k).1.disk.tree := by
  have h := thins_settle ((s.pin k).readFile k).1 k ((s.pin k).readFile k).2
  rw [tree_readFile] at h
  exact h

theorem thins_discard (s : Store) (temp : Path) : s.disk.tree.Thins (s.discard temp).disk.tree :=
  s.disk.thins_removeFile temp

theorem thins_remove (s : Store) (k : CacheKey) : s.disk.tree.Thins (s.remove k).1.disk.tree :=
  thins_deleteFile { s with recency := s.recency.erase k } k

/-- What every removal keeps, a sweep keeps. -/
theorem sweep_induction {P : Store → Prop} {keys : List CacheKey}
    (hremove : ∀ s, ∀ k ∈ keys, P s → P (s.remove k).1) (h : P s) (removed : Nat) : P (s.sweep removed keys).1 := by
  induction keys generalizing s removed with
  | nil => exact h
  | cons k keys ih =>
    have hfirst := hremove s k List.mem_cons_self h
    simp only [sweep]
    split
    · next t gone ht =>
      rw [ht] at hfirst
      exact ih (fun s l hl => hremove s l (List.mem_cons_of_mem k hl)) hfirst _
    · next t e ht =>
      rw [ht] at hfirst
      exact hfirst

theorem thins_sweep (s : Store) (removed : Nat) (keys : List CacheKey) :
    s.disk.tree.Thins (s.sweep removed keys).1.disk.tree :=
  sweep_induction (P := fun t => s.disk.tree.Thins t.disk.tree)
    (fun t k _ h => h.trans (thins_remove t k)) .refl removed

theorem thins_scanShard (shard : Path) (acc : Disk × KeyMap Nat) (entry : String × Node) :
    acc.1.tree.Thins (scanShard shard acc entry).1.tree := by
  simp only [scanShard]
  split
  · exact .refl
  · split
    · exact acc.1.thins_removeFile _
    · exact .refl

theorem thins_scanShards (artifacts : Path) (found : KeyMap Nat) (d : Disk)
    (shards : List (String × Node)) :
    d.tree.Thins (scanShards artifacts found d shards).1.tree := by
  have hfold : ∀ (shard : Path) (entries : List (String × Node)) (acc : Disk × KeyMap Nat),
      acc.1.tree.Thins (entries.foldl (scanShard shard) acc).1.tree := fun shard entries => by
    induction entries with
    | nil => exact fun acc => .refl
    | cons e entries ih => exact fun acc => (thins_scanShard shard acc e).trans (ih _)
  induction shards generalizing found d with
  | nil => exact .refl
  | cons e shards ih =>
    obtain ⟨name, content | _⟩ := e
    · exact ih found d
    · have htree := d.tree_look (·.list (artifacts ++ [name]))
      simp only [scanShards]
      split
      · next d' _ hd =>
        rw [hd] at htree
        exact htree ▸ .refl
      · next d' entries hd =>
        rw [hd] at htree
        have hentries := hfold (artifacts ++ [name]) entries (d', found)
        rw [← htree]
        exact hentries.trans (ih _ _)

theorem thins_scan (d : Disk) (root : Path) : d.tree.Thins (scan d root).1.tree := by
  have htree := d.tree_look (·.list (artifactsPath root))
  simp only [scan]
  split <;>
  · next d' _ hd =>
    rw [hd] at htree
    rw [← htree]
    first
      | exact .refl
      | exact thins_scanShards _ _ _ _

theorem tree_load (d : Disk) (root : Path) : (Index.load d root).1.tree = d.tree := by
  have htree := d.tree_look (·.read (root ++ [Index.fileName]))
  simp only [Index.load]
  split <;>
  · next hd =>
    rw [hd] at htree
    exact htree

/-- The places of temporary files among the artifacts. -/
def Scratch (root p : Path) : Prop := ∃ k name, isTemp name = true ∧ p = shardPath root k ++ [name]

def FilePlace (root p : Path) : Prop := Beside root p ∨ Scratch root p ∨ ∃ k, p = artifactPath root k

/-- The way to a place leads within a root over the directories of a store only. -/
def Leads (root p : Path) : Prop :=
  ∀ q : Path, q <+: p → Path.Inside root q.resolve → Directory root q.resolve

/-- A call by which a store makes its files and directories, or removes a file. -/
inductive Makes (root : Path) (t t' : Tree) : Prop
  | write {p : Path} {content : Bytes} (hp : FilePlace root p) (h : t.write p content = .ok t')
  | removeFile {p : Path} (h : t.removeFile p = .ok t')
  | rename {p q : Path} (hq : FilePlace root q) (h : t.rename p q = .ok t')
  | createDirectories {p : Path} (hp : Leads root p) (h : t.createDirectories p = .ok t')

/-- What comes of a tree by calls of stores with a root. -/
def Does (root : Path) : Tree → Tree → Prop := Relation.ReflTransGen (Makes root)

theorem Makes.call {t t' : Tree} (h : Makes root t t') : Tree.Call t t' := by
  cases h with
  | write _ h => exact .write h
  | removeFile h => exact .removeFile h
  | rename _ h => exact .rename h
  | createDirectories _ h => exact .createDirectories h

namespace Does

theorem becomes {t t' : Tree} (h : Does root t t') : t.Becomes t' := by
  induction h with
  | refl => exact .refl
  | tail _ hc ih => exact ih.tail hc.call

theorem of_thins {t t' : Tree} (h : t.Thins t') : Does root t t' := by
  induction h with
  | refl => exact .refl
  | tail _ hc ih =>
    obtain ⟨p, hc⟩ := hc
    exact ih.tail (.removeFile hc)

theorem change (d : Disk) (action : Tree → Except Fault Tree)
    (h : ∀ t, action d.tree = .ok t → Makes root d.tree t) : Does root d.tree (d.change action).1.tree := by
  rcases d.change_cases action with ⟨e, -, htree⟩ | ⟨t, ht, -, htree⟩
  · rw [htree]
    exact .refl
  · rw [htree]
    exact .single (h t ht)

end Does

theorem leads_of_straight {p : Path} (hp : p.Straight)
    (h : ∀ q, q <+: p → Path.Inside root q → Directory root q) : Leads root p := by
  intro q hq hinside
  rw [hp q hq] at hinside ⊢
  exact h q hq hinside

theorem leads_root (h : root.Straight) : Leads root root :=
  leads_of_straight h fun _ hq hinside =>
    absurd (hq.eq_of_length_le hinside.1.length_le) hinside.2

theorem leads_artifactsPath (h : root.Straight) : Leads root (artifactsPath root) := by
  apply leads_of_straight (h.append_singleton (Path.step_of_ne (by decide) root))
  intro q hq hinside
  rcases List.prefix_concat_iff.mp hq with rfl | hq
  · exact .inl rfl
  · exact absurd (hq.eq_of_length_le hinside.1.length_le) hinside.2

theorem leads_shardPath (h : root.Straight) (k : CacheKey) : Leads root (shardPath root k) := by
  apply leads_of_straight (straight_shardPath h k)
  intro q hq hinside
  rcases prefix_shardPath_iff.mp hq with rfl | hq
  · exact .inr ⟨k, rfl⟩
  · rcases List.prefix_concat_iff.mp hq with rfl | hq
    · exact .inl rfl
    · exact absurd (hq.eq_of_length_le hinside.1.length_le) hinside.2

theorem makeShard_fst (s : Store) (k : CacheKey) : (s.makeShard k).1
    = { s with disk := (s.disk.change (·.createDirectories (shardPath s.root k))).1 } := by
  simp only [makeShard]
  split <;> next h => rw [h]

theorem does_makeShard (hroot : s.root.Straight) (k : CacheKey) :
    Does s.root s.disk.tree (s.makeShard k).1.disk.tree := by
  rw [makeShard_fst]
  exact .change _ _ fun _ => .createDirectories (leads_shardPath hroot k)

theorem scratch_tempPath (s : Store) (k : CacheKey) : Scratch s.root (s.tempPath k) := by
  refine ⟨k, _, isTemp_append fun h => ?_, tempPath_eq s k⟩
  have hlen := congrArg String.length h
  simp at hlen

theorem writeTemp_fst (s : Store) (a : Artifact) : (s.writeTemp a).1 = { s with
    disk := (s.disk.change (·.write (s.tempPath a.key) a.encode)).1, nextTemp := s.nextTemp + 1 } := by
  simp only [writeTemp]
  split <;> next h => rw [h]

theorem does_writeTemp (s : Store) (a : Artifact) :
    Does s.root s.disk.tree (s.writeTemp a).1.disk.tree := by
  rw [writeTemp_fst]
  exact .change _ _ fun _ => .write (.inr (.inl (scratch_tempPath s a.key)))

theorem does_publish (s : Store) (a : Artifact) (temp : Path) :
    Does s.root s.disk.tree (s.publish a temp).1.disk.tree := by
  have hrename : Does s.root s.disk.tree (s.disk.change (·.rename temp (s.pathOf a.key))).1.tree :=
    .change _ _ fun _ => .rename (.inr (.inr ⟨a.key, rfl⟩))
  simp only [publish]
  split
  · exact .of_thins (thins_discard s temp)
  · split
    · next d _ hd =>
      rw [hd] at hrename
      exact hrename.trans (Does.of_thins (thins_discard { s with disk := d } temp))
    · next d hd =>
      rw [hd] at hrename
      exact hrename.trans (Does.of_thins (thins_evict { s with
        disk := d
        recency := s.recency.insert a.key a.encode.length
        counters.puts := s.counters.puts + 1 }))

theorem does_put (hroot : s.root.Straight) (k : CacheKey) (a : Artifact) :
    Does s.root s.disk.tree (s.put k a).1.disk.tree := by
  have hmake := does_makeShard hroot k
  have hmade := (Shrinks.makeShard s k).root
  simp only [put]
  split
  · exact .refl
  · split
    · exact .refl
    · split
      · next t _ ht =>
        rw [ht] at hmake
        exact hmake
      · next t ht =>
        rw [ht] at hmake hmade
        have hwrite := does_writeTemp t a
        have hwritten := (Shrinks.writeTemp t a).root
        split
        · next u _ hu =>
          rw [hu, hmade] at hwrite
          exact hmake.trans hwrite
        · next u temp hu =>
          rw [hu] at hwrite hwritten
          have hpublish := does_publish u a temp
          rw [hwritten, hmade] at hpublish
          rw [hmade] at hwrite
          exact hmake.trans (hwrite.trans hpublish)

theorem does_saveIndex (hroot : s.root.Straight) : Does s.root s.disk.tree s.saveIndex.1.disk.tree := by
  let temp := s.root ++ [s!"{Index.fileName}.{s.process.number}.tmp"]
  let text := Bytes.ofText (Index.ofEntries s.recency.toList).render
  have hmake : Does s.root s.disk.tree (s.disk.change (·.createDirectories s.root)).1.tree :=
    .change _ _ fun _ => .createDirectories (leads_root hroot)
  have hwrite : ∀ d : Disk, Does s.root d.tree (d.change (·.write temp text)).1.tree := fun d =>
    .change _ _ fun _ => .write (.inl (beside_tempIndex _ _))
  have hrename : ∀ d : Disk,
      Does s.root d.tree (d.change (·.rename temp (s.root ++ [Index.fileName]))).1.tree := fun d =>
    .change _ _ fun _ => .rename (.inl (beside_index _))
  simp only [saveIndex, Index.save]
  split
  · next d _ hd =>
    rw [hd] at hmake
    exact hmake
  · next d hd =>
    rw [hd] at hmake
    refine hmake.trans ?_
    have hwrite := hwrite d
    revert hwrite
    rcases d.change (·.write temp text) with ⟨d', e | _⟩
    · exact id
    · refine fun hwrite => hwrite.trans ?_
      have hrename := hrename d'
      simp only
      revert hrename
      rcases d'.change (·.rename temp (s.root ++ [Index.fileName])) with ⟨d'', e | _⟩ <;> exact id

theorem Op.does (hroot : s.root.Straight) (op : Op) : Does s.root s.disk.tree (op.onStore s).1.disk.tree := by
  cases op with
  | put k a => exact does_put hroot k a
  | get k => exact .of_thins (thins_get s k)
  | has k => exact .refl
  | remove k => exact .of_thins (thins_remove s k)
  | gc live => exact .of_thins (thins_sweep s 0 _)
  | saveIndex => exact does_saveIndex hroot

theorem thins_open (d : Disk) (place : Path) (capacity : Option Nat) (process : Process) :
    (d.change (·.createDirectories (artifactsPath place))).1.tree.Thins
      (Store.open d place capacity process).1.tree := by
  simp only [Store.open]
  split
  · next made e hmade =>
    rw [hmade]
    exact .refl
  · next made hmade =>
    rw [hmade]
    have hscan := thins_scan made place.resolve
    split
    · next scanned e hfound =>
      rw [hfound] at hscan
      exact hscan
    · next scanned found hfound =>
      rw [hfound] at hscan
      have hevict := thins_evict ⟨(Index.load scanned place.resolve).1, place.resolve, capacity,
        reconcile found (Index.load scanned place.resolve).2, ⟨0, 0, 0, 0, 0⟩, process, 0⟩
      rw [tree_load] at hevict
      exact hscan.trans hevict

theorem does_open {place : Path} (d : Disk) (hplace : Leads place.resolve (artifactsPath place))
    (capacity : Option Nat) (process : Process) :
    Does place.resolve d.tree (Store.open d place capacity process).1.tree :=
  (Does.change _ _ fun _ => .createDirectories hplace).trans
    (Does.of_thins (thins_open d place capacity process))

theorem disk_open {d d' : Disk} {place : Path} {capacity : Option Nat} {process : Process}
    (h : Store.open d place capacity process = (d', .ok s)) : d' = s.disk := by
  simp only [Store.open] at h
  split at h
  · cases h
  · split at h
    · cases h
    · cases h
      rfl

/-- After opening there is a directory at each place on the way, and nothing was done but calls. -/
theorem becomes_open {d d' : Disk} {place : Path} {capacity : Option Nat} {process : Process}
    (h : Store.open d place capacity process = (d', .ok s)) : d.tree.Becomes s.disk.tree ∧
      ∀ q : Path, q <+: artifactsPath place → s.disk.tree.node? q.resolve = some .directory := by
  have hthins := thins_open d place capacity process
  rw [h, disk_open h] at hthins
  have hmade : ∃ made, d.change (·.createDirectories (artifactsPath place)) = (made, .ok ()) := by
    simp only [Store.open] at h
    split at h
    · cases h
    · next made hmade => exact ⟨made, hmade⟩
  obtain ⟨made, hmade⟩ := hmade
  rw [hmade] at hthins
  have hcall := Disk.change_eq_ok hmade
  refine ⟨(Relation.ReflTransGen.single (.createDirectories hcall)).trans hthins.becomes, fun q hq => ?_⟩
  exact hthins.becomes.directory (Tree.node?_of_createDirectories hcall hq)

end BuildCache.Store
