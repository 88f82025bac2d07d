import BuildCache.Proofs.Artifact.Memory
import BuildCache.Proofs.Index
import BuildCache.Proofs.Recency
import BuildCache.Proofs.Store.Lru
import BuildCache.Proofs.Store.Stowed

/-! # What each call does to a store whose calls on the disk succeed: the same as to the bounded map -/
namespace BuildCache.Store

/-- Without failing calls, a store is a bounded map: in its files, in its recency and in its
counters. -/
structure Mirrors (capacity : Option Nat) (root : Path) (s : Store) (m : Lru) : Prop where
  capacity_eq : s.capacity = capacity
  root_eq : s.root = root
  refusals : s.disk.refusals = []
  stowed : Stowed s.root m.entries s.disk.tree
  lists : s.recency.Lists (m.entries.mapValues Lru.bytes)
  counters : s.counters = m.counters
  valid : ∀ e ∈ m.entries, e.2.key = e.1 ∧ e.2.size < Bytes.range 8

variable {capacity : Option Nat} {root : Path} {s : Store} {m : Lru} {entries : KeyMap Artifact}
  {k : CacheKey}

theorem deleteFile_eq (hd : s.disk.refusals = []) (h : Stowed s.root entries s.disk.tree) (k : CacheKey) :
    ∃ tree, s.deleteFile k = ({ s with disk := ⟨tree, []⟩ }, .ok (entries.find? k).isSome) ∧
      Stowed s.root (entries.erase k) tree := by
  simp only [deleteFile]
  cases hk : entries.find? k with
  | some a =>
    have hfile : s.disk.tree.node? (s.pathOf k) = some (.file a.encode) := by
      rw [pathOf, h.files, hk]
      rfl
    rw [Disk.change_ok hd (Tree.removeFile_ok hfile)]
    exact ⟨_, rfl, h.erase k⟩
  | none =>
    have herror : s.disk.tree.removeFile (s.pathOf k) = .error .notFound := by
      rw [Tree.removeFile, pathOf, h.lookup_notFound hk]
    rw [Disk.change_error hd herror]
    refine ⟨s.disk.tree, ?_, ?_⟩
    · rw [← hd]
      rfl
    · rwa [KeyMap.erase_eq_self hk]

theorem foldl_evictFile {dropped kept : KeyMap Artifact} (hd : s.disk.refusals = [])
    (h : Stowed s.root (dropped ++ kept) s.disk.tree) (honce : KeyMap.Once (dropped ++ kept)) :
    ∃ tree, (dropped.map (·.1)).foldl evictFile s
        = { s with disk := ⟨tree, []⟩, counters.evictions := s.counters.evictions + dropped.length } ∧
      Stowed s.root kept tree := by
  induction dropped generalizing s with
  | nil =>
    refine ⟨s.disk.tree, ?_, h⟩
    rw [← hd]
    rfl
  | cons e dropped ih =>
    obtain ⟨hnone, hrest⟩ : KeyMap.find? (dropped ++ kept) e.1 = none ∧ KeyMap.Once (dropped ++ kept) :=
      KeyMap.Once.cons_iff.mp honce
    obtain ⟨tree, hdelete, hstowed⟩ := deleteFile_eq hd h e.1
    rw [List.cons_append, KeyMap.erase_cons, if_pos rfl, KeyMap.erase_eq_self hnone] at hstowed
    have hevict : s.evictFile e.1
        = { s with disk := ⟨tree, []⟩, counters.evictions := s.counters.evictions + 1 } := by
      rw [evictFile, hdelete]
    obtain ⟨tree', hfold, hstowed'⟩ := ih (s := s.evictFile e.1) (by rw [hevict])
      (by rw [hevict]; exact hstowed) hrest
    refine ⟨tree', ?_, by rw [hevict] at hstowed'; exact hstowed'⟩
    rw [List.map_cons, List.foldl_cons, hfold, hevict, List.length_cons]
    simp only [Nat.add_assoc, Nat.add_comm 1]

/-- Eviction drops the least recently used entries, with their files, and counts them. -/
theorem evict_eq (hd : s.disk.refusals = []) (h : Stowed s.root entries s.disk.tree)
    (hl : s.recency.Lists (entries.mapValues Lru.bytes)) :
    ∃ tree recency, s.evict = { s with
        disk := ⟨tree, []⟩
        recency := recency
        counters.evictions := s.counters.evictions
          + (entries.length - (Lru.fit s.capacity entries).length) } ∧
      Stowed s.root (Lru.fit s.capacity entries) tree ∧
      recency.Lists ((Lru.fit s.capacity entries).mapValues Lru.bytes) := by
  simp only [evict]
  split
  · next hc =>
    have hfit : Lru.fit s.capacity entries = entries := by
      rw [hc]
      rfl
    rw [hfit]
    refine ⟨s.disk.tree, s.recency, ?_, h, hl⟩
    rw [Nat.sub_self, Nat.add_zero, ← hd]
  · next limit hc =>
    have hfit : Lru.fit s.capacity entries = entries.trim Lru.bytes limit := by
      rw [hc]
      rfl
    rw [hfit]
    obtain ⟨dropped, hdropped, hkeys, hlists⟩ := hl.evictOver limit
    have honce : KeyMap.Once (dropped ++ entries.trim Lru.bytes limit) := hdropped ▸ hl.once_of_mapValues
    have hlen : dropped.length = entries.length - (entries.trim Lru.bytes limit).length := by
      have := congrArg List.length hdropped
      rw [List.length_append] at this
      omega
    obtain ⟨tree, hfold, hstowed⟩ := foldl_evictFile
      (s := { s with recency := (s.recency.evictOver limit).1 })
      hd (hdropped ▸ h) honce
    refine ⟨tree, (s.recency.evictOver limit).1, ?_, hstowed, hlists⟩
    rw [← hlen]
    simp only [hkeys]
    exact hfold

theorem node?_tempPath (h : Stowed s.root entries s.disk.tree) (k : CacheKey) :
    s.disk.tree.node? (s.tempPath k) = none := by
  by_contra hne
  obtain ⟨n, hn⟩ := Option.ne_none_iff_exists'.mp hne
  have hbelow : s.root <+: s.tempPath k := (Stowed.root_prefix_shard _ _).trans (List.prefix_append _ _)
  rcases h.inside _ _ hbelow (ne_of_length_ne (by simp)) hn with ⟨-, he | ⟨l, he⟩⟩ | ⟨-, he | ⟨l, he⟩⟩
  · exact ne_of_length_ne (by simp) he
  · exact ne_of_length_ne (by simp) he
  · have hlen := he.length_eq
    rw [length_tempPath] at hlen
    omega
  · exact tempPath_ne_artifactPath _ _ _ he

/-- An artifact that is not there is written, moved into place and tracked before anything is evicted. -/
theorem put_eq {a : Artifact} {made : Tree} (hd : s.disk.refusals = [])
    (hmake : s.disk.tree.createDirectories (shardPath s.root a.key) = .ok made)
    (hshard : made.node? (shardPath s.root a.key) = some .directory)
    (htemp : made.node? (s.tempPath a.key) ≠ some .directory) (hplace : made.node? (s.pathOf a.key) = none) :
    ∃ tree, s.put a.key a = (evict { s with
        disk := ⟨tree, []⟩
        nextTemp := s.nextTemp + 1
        recency := s.recency.insert a.key a.encode.length
        counters.puts := s.counters.puts + 1 }, .ok ()) ∧
      ∀ q, tree.node? q = if s.pathOf a.key = q then some (.file a.encode)
        else if s.tempPath a.key = q then none else made.node? q := by
  have hdir : (s.tempPath a.key).dropLast = shardPath s.root a.key := List.dropLast_concat
  have hdir' : (s.pathOf a.key).dropLast = shardPath s.root a.key := List.dropLast_concat
  have hway : made.node? (s.tempPath a.key).dropLast = some .directory := by rw [hdir, hshard]
  have hway' : made.node? (s.pathOf a.key).dropLast = some .directory := by rw [hdir', hshard]
  have hfree : ∀ node, made.node? (s.pathOf a.key) ≠ some node := fun node => by
    rw [hplace]
    exact (Option.some_ne_none node).symm
  obtain ⟨written, moved, hwrite, hrename, hsame, hnode⟩ :=
    Tree.write_rename_ok hway hway' htemp (hfree .directory)
  refine ⟨moved, ?_, hnode⟩
  let s' : Store := { s with disk := ⟨made, []⟩ }
  let s'' : Store := { s' with disk := ⟨written, []⟩, nextTemp := s.nextTemp + 1 }
  have hmade : s.makeShard a.key = (s', .ok ()) := by
    simp only [makeShard]
    rw [Disk.change_ok hd hmake]
  have hwritten : s'.writeTemp a = (s'', .ok (s.tempPath a.key)) := by
    simp only [writeTemp]
    rw [Disk.change_ok rfl hwrite]
    rfl
  have hhas : s.has a.key = false := by
    apply Tree.isFile_eq_false.mpr
    intro content hf
    rw [(Tree.file_createDirectories hmake).mpr hf] at hplace
    cases hplace
  have hhas' : s''.has a.key = false := by
    apply Tree.isFile_eq_false.mpr
    intro content
    have hother := hsame (s.pathOf a.key) (tempPath_ne_artifactPath s a.key a.key)
    show written.node? (s.pathOf a.key) ≠ some (.file content)
    rw [hother]
    exact hfree (.file content)
  simp only [Store.put, hhas, hmade]
  rw [if_neg (not_not.mpr rfl), if_neg Bool.false_ne_true, hwritten]
  simp only [Store.publish, hhas']
  rw [if_neg Bool.false_ne_true, Disk.change_ok rfl hrename]

theorem put_new {a : Artifact} (hd : s.disk.refusals = []) (h : Stowed s.root entries s.disk.tree)
    (hk : entries.find? a.key = none) :
    ∃ tree, Stowed s.root (entries ++ [(a.key, a)]) tree ∧ s.put a.key a = (evict { s with
      disk := ⟨tree, []⟩
      nextTemp := s.nextTemp + 1
      recency := s.recency.insert a.key a.encode.length
      counters.puts := s.counters.puts + 1 }, .ok ()) := by
  obtain ⟨made, hmake, hstowed, hshard⟩ := h.makeShard a.key
  have htemp : made.node? (s.tempPath a.key) = none :=
    node?_tempPath (s := { s with disk := ⟨made, []⟩ }) hstowed a.key
  have hplace : made.node? (s.pathOf a.key) = none := by
    rw [pathOf, hstowed.files, hk]
    rfl
  obtain ⟨tree, hput, hnode⟩ := put_eq hd hmake hshard (by rw [htemp]; exact nofun) hplace
  exact ⟨tree, hstowed.publish hk htemp hnode, hput⟩

/-- The index is written under a temporary name and moved into place beside the artifacts. -/
theorem saveIndex_eq (hd : s.disk.refusals = []) (h : Stowed s.root entries s.disk.tree) :
    ∃ tree, s.saveIndex = ({ s with disk := ⟨tree, []⟩ }, .ok ()) ∧ Stowed s.root entries tree := by
  have hplace := beside_index s.root
  have htemp := beside_tempIndex s.root s.process.number
  obtain ⟨made, hmade, hsame⟩ := h.root_ok
  have hstowed := h.congr hsame
  have hroot : made.node? s.root = some .directory := hstowed.way _ (Stowed.root_prefix_artifacts _)
  obtain ⟨tree, hsave, hnode⟩ := Index.save_ok (.ofEntries s.recency.toList) hd hmade hroot
    (hstowed.node?_beside htemp) (hstowed.node?_beside hplace)
  refine ⟨tree, ?_, hstowed.saveIndex hplace htemp hnode⟩
  simp only [saveIndex, hsave]

namespace Mirrors

theorem once (h : Mirrors capacity root s m) : m.entries.Once := h.lists.once_of_mapValues

theorem has_eq (h : Mirrors capacity root s m) (k : CacheKey) : s.has k = m.has k := h.stowed.isFile_eq k

theorem touch (h : Mirrors capacity root s m) {a : Artifact} (hk : m.entries.find? k = some a) :
    Mirrors capacity root (s.touch k) { m with entries := m.entries.erase k ++ [(k, a)] } where
  capacity_eq := h.capacity_eq
  root_eq := h.root_eq
  refusals := h.refusals
  stowed := h.stowed.of_find? (KeyMap.find?_promote hk)
  lists := by
    have hsize : (m.entries.mapValues Lru.bytes).find? k = some (Lru.bytes a) := by
      rw [KeyMap.find?_mapValues, hk]
      rfl
    have := h.lists.touch hsize
    rwa [KeyMap.erase_mapValues, ← KeyMap.mapValues_append_singleton] at this
  counters := h.counters
  valid e he := by
    rcases List.mem_append.mp he with he | he
    · exact h.valid e (List.mem_filter.mp he).1
    · rw [List.mem_singleton.mp he]
      exact h.valid (k, a) (KeyMap.mem_of_find? hk)

/-- A new entry comes last, and is there when it is decided what has to go. -/
theorem put_absent (h : Mirrors capacity root s m) {a : Artifact} (hk : m.entries.find? a.key = none)
    (hsize : a.size < Bytes.range 8) :
    (s.put a.key a).2 = (m.put capacity a.key a).2 ∧
      Mirrors capacity root (s.put a.key a).1 (m.put capacity a.key a).1 := by
  obtain ⟨tree, hstowed, hput⟩ := put_new h.refusals h.stowed hk
  let stored : Store := { s with
    disk := ⟨tree, []⟩
    nextTemp := s.nextTemp + 1
    recency := s.recency.insert a.key a.encode.length
    counters.puts := s.counters.puts + 1 }
  have hlists : stored.recency.Lists (KeyMap.mapValues Lru.bytes (m.entries ++ [(a.key, a)])) := by
    have := h.lists.insert a.key a.encode.length
    rw [KeyMap.erase_mapValues, KeyMap.erase_eq_self hk] at this
    rwa [KeyMap.mapValues_append_singleton]
  obtain ⟨tree', recency, hevict, hkept, hfit⟩ := evict_eq (s := stored) rfl hstowed hlists
  have hcapacity := h.capacity_eq
  subst hcapacity
  rw [hput, hevict]
  simp only [Lru.put, ne_eq, not_true_eq_false, if_false, hk, true_and]
  refine ⟨rfl, h.root_eq, rfl, hkept, hfit, ?_, fun e he => ?_⟩
  · rw [← h.counters]
  · have he := KeyMap.mem_of_mem_fit he
    rcases List.mem_append.mp he with he | he
    · exact h.valid e he
    · rw [List.mem_singleton.mp he]
      exact ⟨rfl, hsize⟩

theorem put (h : Mirrors capacity root s m) (k : CacheKey) {a : Artifact}
    (hsize : a.size < Bytes.range 8) :
    (s.put k a).2 = (m.put capacity k a).2 ∧
      Mirrors capacity root (s.put k a).1 (m.put capacity k a).1 := by
  by_cases hkey : a.key = k
  · subst hkey
    cases hk : m.entries.find? a.key with
    | some old =>
      have hhas : s.has a.key = true := by rw [h.has_eq, Lru.has, hk]; rfl
      simp only [Store.put, Lru.put, ne_eq, not_true_eq_false, if_false, hhas, if_true, hk]
      exact ⟨trivial, h.touch hk⟩
    | none => exact h.put_absent hk hsize
  · simp only [Store.put, Lru.put, ne_eq, hkey, not_false_eq_true, if_true]
    exact ⟨trivial, h⟩

theorem readFile_eq (h : Mirrors capacity root s m) (k : CacheKey) :
    s.readFile k = (s, match m.entries.find? k with
      | some a => .found a.reread (Lru.bytes a)
      | none => .absent) := by
  simp only [readFile]
  rw [Disk.look_eq h.refusals]
  cases hk : m.entries.find? k with
  | some a =>
    obtain ⟨hkey, hsize⟩ : a.key = k ∧ a.size < Bytes.range 8 := h.valid (k, a) (KeyMap.mem_of_find? hk)
    have hread : s.disk.tree.read (s.pathOf k) = .ok a.encode := by
      rw [Tree.read_eq_ok, pathOf, h.stowed.files, hk]
      rfl
    have hdecode : Artifact.decode s.process.memory k a.encode = .ok a.reread := by
      rw [← hkey]
      exact Artifact.decode_encode_self hsize _
    simp only [hread, hdecode]
    rfl
  | none =>
    have hread : s.disk.tree.read (s.pathOf k) = .error .notFound := by
      rw [Tree.read, pathOf, h.stowed.lookup_notFound hk]
    simp only [hread]

theorem readFile_pin (s : Store) (k : CacheKey) :
    (s.pin k).readFile k = ((s.readFile k).1.pin k, (s.readFile k).2) := by
  have hdisk : (s.pin k).disk = s.disk := rfl
  have hpath : (s.pin k).pathOf k = s.pathOf k := rfl
  simp only [readFile]
  rw [hdisk, hpath]
  rcases s.disk.look (·.read (s.pathOf k)) with ⟨d, (e | raw)⟩
  · cases e <;> rfl
  · rfl

theorem get (h : Mirrors capacity root s m) (k : CacheKey) :
    (s.get k).2 = .ok (m.get k).2 ∧ Mirrors capacity root (s.get k).1 (m.get k).1 := by
  have hunpin : (s.pin k).recency.unpin k = s.recency := h.lists.unpin_pin k
  have hcontains := h.lists.contains_eq k
  rw [KeyMap.find?_mapValues, Option.isSome_map] at hcontains
  cases hk : m.entries.find? k with
  | some a =>
    have hused := h.touch hk
    rw [hk] at hcontains
    simp only [Store.get, Lru.get, readFile_pin, h.readFile_eq, hk, settle, hunpin, hcontains,
      Option.isSome_some, if_true, true_and]
    refine ⟨hused.capacity_eq, hused.root_eq, hused.refusals, hused.stowed, hused.lists, ?_, hused.valid⟩
    rw [← h.counters]
    rfl
  | none =>
    have hfile : (s.pin k).disk.tree.isFile ((s.pin k).pathOf k) = false := by
      have := h.has_eq k
      rw [Lru.has, hk] at this
      exact this
    have herase : s.recency.erase k = s.recency := by
      rw [hk, Option.isSome_none, Recency.contains, KeyMap.contains, Option.isSome_eq_false_iff,
        Option.isNone_iff_eq_none]
        at hcontains
      rw [Recency.erase, hcontains]
    simp only [Store.get, Lru.get, readFile_pin, h.readFile_eq, hk, settle, hunpin, hfile, herase,
      Bool.false_eq_true, if_false, true_and]
    refine ⟨h.capacity_eq, h.root_eq, h.refusals, h.stowed, h.lists, ?_, h.valid⟩
    rw [← h.counters]
    rfl

theorem remove (h : Mirrors capacity root s m) (k : CacheKey) :
    ∃ t, s.remove k = (t, .ok (m.remove k).2) ∧ Mirrors capacity root t (m.remove k).1 := by
  obtain ⟨tree, hdelete, hstowed⟩ := deleteFile_eq
    (s := { s with recency := s.recency.erase k }) h.refusals h.stowed k
  refine ⟨_, hdelete, h.capacity_eq, h.root_eq, rfl, hstowed, ?_, h.counters, fun e he => ?_⟩
  · have := h.lists.erase k
    rwa [KeyMap.erase_mapValues] at this
  · exact h.valid e (List.mem_filter.mp he).1

theorem sweep {dead : List CacheKey} (h : Mirrors capacity root s m) (hdead : ∀ k ∈ dead, m.has k = true)
    (hn : dead.Nodup) (removed : Nat) : ∃ t, s.sweep removed dead = (t, .ok (removed + dead.length)) ∧
      Mirrors capacity root t { m with entries := dead.foldl KeyMap.erase m.entries } := by
  induction dead generalizing s m removed with
  | nil => exact ⟨s, rfl, h⟩
  | cons k dead ih =>
    obtain ⟨hnot, hn⟩ := List.nodup_cons.mp hn
    obtain ⟨t, hremove, ht⟩ := h.remove k
    have hlater : ∀ l ∈ dead, (m.remove k).1.has l = true := fun l hl => by
      have hne : k ≠ l := fun he => hnot (he ▸ hl)
      rw [Lru.has, Lru.remove, KeyMap.find?_erase, if_neg hne]
      exact hdead l (List.mem_cons_of_mem _ hl)
    obtain ⟨u, hsweep, hu⟩ := ih ht hlater hn (removed + 1)
    refine ⟨u, ?_, hu⟩
    have hgone : (m.remove k).2 = true := hdead k List.mem_cons_self
    rw [Store.sweep, hremove, hgone]
    simp only [if_true, hsweep, List.length_cons]
    rw [Nat.add_right_comm, Nat.add_assoc]

theorem gc (h : Mirrors capacity root s m) (live : List CacheKey) :
    ∃ t, s.gc live = (t, .ok (m.gc live).2) ∧ Mirrors capacity root t (m.gc live).1 := by
  let dead := (m.entries.map (·.1)).filter fun k => !live.contains k
  have hkeys : ((s.recency.toList.map (·.1)).filter fun k =>
    !(live.contains k) && !(s.recency.isPinned k)) = dead := by
    rw [h.lists.toList_eq, KeyMap.keys_mapValues]
    apply List.filter_congr
    intro k _
    rw [h.lists.isPinned_eq, Bool.not_false, Bool.and_true]
  have hdead : ∀ k ∈ dead, m.has k = true := fun k hk => by
    obtain ⟨e, he, rfl⟩ := List.mem_map.mp (List.mem_filter.mp hk).1
    rw [Lru.has, h.once.find?_eq_some.mpr he]
    rfl
  have hkept : dead.foldl KeyMap.erase m.entries = m.entries.filter fun e => live.contains e.1 := by
    rw [KeyMap.foldl_erase]
    apply List.filter_congr
    intro e he
    have hmem : e.1 ∈ m.entries.map (·.1) := List.mem_map_of_mem he
    cases hl : live.contains e.1 <;> simp_all [dead]
  have hlength : dead.length = m.entries.length - (m.entries.filter fun e =>
    live.contains e.1).length := by
    have hsplit := List.length_eq_length_filter_add (l := m.entries) fun e => live.contains e.1
    have hmap : dead.length = (m.entries.filter fun e => !live.contains e.1).length := by
      simp only [dead, List.filter_map, List.length_map]
      rfl
    omega
  obtain ⟨t, hsweep, ht⟩ := h.sweep hdead (h.once.filter _) 0
  refine ⟨t, ?_, ?_⟩
  · rw [Store.gc, hkeys, hsweep, Nat.zero_add, hlength]
    rfl
  · rwa [hkept] at ht

theorem saveIndex (h : Mirrors capacity root s m) :
    ∃ t, s.saveIndex = (t, .ok ()) ∧ Mirrors capacity root t m := by
  obtain ⟨tree, hsave, hstowed⟩ := saveIndex_eq h.refusals h.stowed
  exact ⟨_, hsave, h.capacity_eq, h.root_eq, rfl, hstowed, h.lists, h.counters, h.valid⟩

/-- One call answers as the bounded map does and keeps the store like it. -/
theorem step (h : Mirrors capacity root s m) {op : Op} (hop : op.Sized) :
    (op.onStore s).2 = (op.onLru capacity m).2 ∧
      Mirrors capacity root (op.onStore s).1 (op.onLru capacity m).1 := by
  cases op with
  | put k a =>
    obtain ⟨hanswer, hnext⟩ := h.put k hop
    exact ⟨congrArg Answer.done hanswer, hnext⟩
  | get k =>
    obtain ⟨hanswer, hnext⟩ := h.get k
    exact ⟨congrArg Answer.found hanswer, hnext⟩
  | has k => exact ⟨congrArg (fun b => Answer.whether (.ok b)) (h.has_eq k), h⟩
  | remove k =>
    obtain ⟨t, hremove, hnext⟩ := h.remove k
    simp only [Op.onStore, Op.onLru, hremove, Prod.map]
    exact ⟨trivial, hnext⟩
  | gc live =>
    obtain ⟨t, hgc, hnext⟩ := h.gc live
    simp only [Op.onStore, Op.onLru, hgc, Prod.map]
    exact ⟨trivial, hnext⟩
  | saveIndex =>
    obtain ⟨t, hsave, hnext⟩ := h.saveIndex
    simp only [Op.onStore, Op.onLru, hsave, Prod.map]
    exact ⟨trivial, hnext⟩

theorem run {ops : List Op} (h : Mirrors capacity root s m) (hops : ∀ op ∈ ops, op.Sized) :
    (Op.run Op.onStore s ops).2 = (Op.run (Op.onLru capacity) m ops).2 ∧
      Mirrors capacity root (Op.run Op.onStore s ops).1 (Op.run (Op.onLru capacity) m ops).1 := by
  induction ops generalizing s m with
  | nil => exact ⟨rfl, h⟩
  | cons op ops ih =>
    obtain ⟨hanswer, hnext⟩ := h.step (hops op List.mem_cons_self)
    obtain ⟨hanswers, hlast⟩ := ih hnext fun op' hop' => hops op' (List.mem_cons_of_mem _ hop')
    refine ⟨?_, hlast⟩
    rw [Op.run, Op.run, hanswer, hanswers]

theorem stats_eq (h : Mirrors capacity root s m) : s.stats = m.stats := by
  rw [Store.stats, Lru.stats, h.counters, h.lists.size_eq, h.lists.totalBytes_eq, KeyMap.weight_mapValues]
  congr 1
  rw [KeyMap.mapValues, List.length_map]

end Mirrors
end BuildCache.Store
