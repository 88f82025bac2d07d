import BuildCache.Proofs.Recency.Plain
import BuildCache.Proofs.Store.Calls
import BuildCache.Proofs.Store.Scan

/-! # What a store tracks once it is opened: the keys that entries are named for, as far as there is room -/
namespace BuildCache.Store

open KeyMap (fit weight)

variable {place root : Path} {capacity : Option Nat} {process : Process} {t t' : Tree} {d d' made : Disk} {s : Store}
  {order held : KeyMap Nat} {k : CacheKey} {n : Nat}

theorem exists_evictFile_eq (s : Store) (k : CacheKey) : ∃ counters, s.evictFile k =
    { s with disk := (s.disk.change (·.removeFile (s.pathOf k))).1, counters := counters } := by
  have hfst := deleteFile_fst s k
  simp only [evictFile]
  split <;>
  · next t _ ht =>
    rw [ht] at hfst
    obtain rfl := hfst
    exact ⟨_, rfl⟩

theorem exists_foldl_evictFile_eq (s : Store) (gone : List CacheKey) :
    ∃ d counters, gone.foldl evictFile s = { s with disk := d, counters := counters } ∧
      Disk.Swept (fun q => ∃ k ∈ gone, q = s.pathOf k) s.disk d := by
  induction gone generalizing s with
  | nil =>
    exact ⟨s.disk, s.counters, rfl, (Disk.Swept.refl s.disk).mono (fun _ h => h.elim) fun q hq _ => by
      simp at hq⟩
  | cons k gone ih =>
    obtain ⟨counters, hevict⟩ := exists_evictFile_eq s k
    obtain ⟨d, counters', hfold, hswept⟩ := ih (s.evictFile k)
    rw [hevict] at hfold hswept
    refine ⟨d, counters', ?_, ((s.disk.swept_removeFile (s.pathOf k)).trans hswept).mono (fun q hq => ?_)
      fun q hq _ => ?_⟩
    · rw [List.foldl_cons, hevict]
      exact hfold
    · rcases hq with rfl | ⟨l, hl, rfl⟩
      · exact ⟨k, List.mem_cons_self, rfl⟩
      · exact ⟨l, List.mem_cons_of_mem _ hl, rfl⟩
    · obtain ⟨l, hl, rfl⟩ := hq
      rcases List.mem_cons.mp hl with rfl | hl
      · exact .inl rfl
      · exact .inr ⟨l, hl, rfl⟩

/-- A key of an order for which there is no room. -/
def Dropped (capacity : Option Nat) (order : KeyMap Nat) (k : CacheKey) : Prop :=
  order.find? k ≠ none ∧ (fit id capacity order).find? k = none

/-- Eviction keeps of an order what there is room for, and deletes the files of the others if it may. -/
theorem exists_evict_eq (h : s.recency.Lists order) :
    ∃ d counters recency, s.evict = { s with disk := d, counters := counters, recency := recency } ∧
      recency.Lists (fit id s.capacity order) ∧
      Disk.Swept (fun q => ∃ k, Dropped s.capacity order k ∧ q = s.pathOf k) s.disk d := by
  simp only [evict]
  split
  · next hc =>
    refine ⟨s.disk, s.counters, s.recency, rfl, hc ▸ h, ?_⟩
    rw [hc]
    refine (Disk.Swept.refl s.disk).mono (fun _ h => h.elim) fun q hq _ => ?_
    obtain ⟨k, hk, -⟩ := hq
    exact hk.1 hk.2
  · next limit hc =>
    have hids : s.recency.Lists (order.mapValues id) := by rwa [KeyMap.mapValues_id]
    obtain ⟨dropped, hdropped, hkeys, hlists⟩ := hids.evictOver limit
    rw [KeyMap.mapValues_id] at hlists
    obtain ⟨d, counters, hfold, hswept⟩ := exists_foldl_evictFile_eq
      { s with recency := (s.recency.evictOver limit).1 } (s.recency.evictOver limit).2
    refine ⟨d, counters, (s.recency.evictOver limit).1, hfold, hc ▸ hlists, ?_⟩
    rw [hc]
    have honce : KeyMap.Once (dropped ++ order.trim id limit) := hdropped ▸ h.once
    have hgone : ∀ k, k ∈ (s.recency.evictOver limit).2 ↔ Dropped (some limit) order k := fun k => by
      rw [hkeys, honce.mem_front, ← hdropped]
      rfl
    refine hswept.mono (fun q hq => ?_) fun q hq _ => ?_
    · obtain ⟨k, hk, rfl⟩ := hq
      exact ⟨k, (hgone k).mp hk, rfl⟩
    · obtain ⟨k, hk, rfl⟩ := hq
      exact ⟨k, (hgone k).mpr hk, rfl⟩

/-- The index that a tree holds for a root, if it is usable. -/
def indexOf (t : Tree) (root : Path) : Option Index :=
  (t.content? (root ++ [Index.fileName])).bind Index.ofFile?

theorem load_eq (hd : d.refusals = []) (root : Path) : Index.load d root = (d, indexOf d.tree root) := by
  simp only [Index.load, indexOf, Tree.content?]
  rw [Disk.look_eq hd, Tree.read, Tree.lookup]
  rcases d.tree.node? (root ++ [Index.fileName]) with _ | content | _ <;> rfl

theorem swept_load (d : Disk) (root : Path) : Disk.Swept (fun _ => False) d (Index.load d root).1 :=
  .of_tree (tree_load d root) fun hd => by rwa [load_eq hd]

/-- The operations by which an order is tracked, and then brought down to a capacity. -/
def trackingOps (capacity : Option Nat) (order : KeyMap Nat) : List Recency.Op :=
  order.map (fun e => .insert e.1 e.2) ++ capacity.toList.map .evictOver

theorem recency_evict (s : Store) :
    s.evict.recency = s.capacity.elim s.recency fun limit => (s.recency.evictOver limit).1 := by
  simp only [evict]
  split
  · next hc => rw [hc, Option.elim_none]
  · next limit hc =>
    obtain ⟨d, counters, hfold, -⟩ := exists_foldl_evictFile_eq
      { s with recency := (s.recency.evictOver limit).1 } (s.recency.evictOver limit).2
    exact (congrArg Store.recency hfold).trans (by rw [hc, Option.elim_some])

theorem run_trackingOps (capacity : Option Nat) (order : KeyMap Nat) :
    (Recency.Op.run Recency.Op.onRecency .empty (trackingOps capacity order)).1
      = capacity.elim (order.foldl (fun r e => Recency.insert r e.1 e.2) .empty) fun limit =>
        ((order.foldl (fun r e => Recency.insert r e.1 e.2) .empty).evictOver limit).1 := by
  rw [trackingOps, Recency.Op.run_fst, List.foldl_append, List.foldl_map, List.foldl_map]
  cases capacity <;> rfl

/-- What came of a disk and of a scan of it when a store was opened. -/
structure Opening (made : Disk) (root : Path) (capacity : Option Nat) (order : KeyMap Nat) (s : Store) :
    Prop where
  notes : Notes (Named root made.tree) order
  ordered : ∃ index others, order = indexed order.find? index ++ others ∧ others.Pairwise (·.1 < ·.1) ∧
    (made.refusals = [] → index = indexOf made.tree root)
  root_eq : s.root = root
  capacity_eq : s.capacity = capacity
  lists : s.recency.Lists (fit id capacity order)
  recency_eq : s.recency = (Recency.Op.run Recency.Op.onRecency .empty (trackingOps capacity order)).1
  swept : Disk.Swept (fun q => Temp root made.tree q ∨ ∃ k, Dropped capacity order k ∧ q = artifactPath root k)
    made s.disk

theorem artifactsPath_resolve (place : Path) :
    Path.resolve (artifactsPath place) = artifactsPath place.resolve := by
  rw [artifactsPath, Path.resolve_append_singleton, Path.step_of_ne (by decide)]
  rfl

theorem open_spec (ht : d.tree.Tidy place.resolve)
    (ho : Store.open d place capacity process = (d', .ok s)) :
    ∃ made order, d.change (·.createDirectories (artifactsPath place)) = (made, .ok ()) ∧
      Opening made place.resolve capacity order s := by
  simp only [Store.open] at ho
  split at ho
  · cases ho
  · next made hmade =>
    have hcall := Disk.change_eq_ok hmade
    have hdir := Tree.node?_of_createDirectories hcall (List.prefix_refl _)
    rw [artifactsPath_resolve] at hdir
    split at ho
    · cases ho
    · next scanned found hscan =>
      obtain ⟨hnotes, hswept⟩ := scan_spec (ht.createDirectories hcall) hdir hscan
      let index := (Index.load scanned place.resolve).2
      obtain ⟨others, hperm, hothers, hlists, hreconcile⟩ := reconcile_lists hnotes.once index
      have hsame : KeyMap.find? (indexed found.find? index ++ others) = found.find? :=
        funext (hnotes.once.find?_perm hperm)
      let opened : Store :=
        ⟨(Index.load scanned place.resolve).1, place.resolve, capacity, reconcile found index,
          ⟨0, 0, 0, 0, 0⟩, process, 0⟩
      obtain ⟨d₁, counters, recency, hevict, hkept, hgone⟩ := exists_evict_eq (s := opened) hlists
      have hload : Disk.Swept (fun _ => False) scanned opened.disk := swept_load scanned place.resolve
      have hs : opened.evict = s := Except.ok.inj (congrArg Prod.snd ho)
      refine ⟨made, indexed found.find? index ++ others, hmade, hnotes.perm hperm, ?_, ?_, ?_, ?_, ?_, ?_⟩
      · refine ⟨index, others, by rw [hsame], hothers, fun hd => ?_⟩
        have hindex : scanned.tree.node? (place.resolve ++ [Index.fileName])
            = made.tree.node? (place.resolve ++ [Index.fileName]) := by
          apply hswept.kept
          rintro ⟨shard, -, name, -, he⟩
          exact ne_of_length_ne (by simp) he
        show (Index.load scanned place.resolve).2 = _
        rw [load_eq (hswept.permits hd), indexOf, indexOf, Tree.content?, Tree.content?, hindex]
      · rw [← hs, hevict]
      · rw [← hs, hevict]
      · rw [← hs, hevict]
        exact hkept
      · rw [← hs, recency_evict, run_trackingOps, ← hreconcile]
      · rw [← hs, hevict]
        refine ((hswept.trans hload).trans hgone).mono (fun q hq => ?_) fun q hq _ => ?_
        · rcases hq with (hq | hq) | hq
          · exact .inl hq
          · exact hq.elim
          · exact .inr hq
        · exact hq.imp_left .inl

theorem exists_open (hd : d.refusals = []) (ht : d.tree.Tidy place.resolve) {t : Tree}
    (hmake : d.tree.createDirectories (artifactsPath place) = .ok t) (capacity : Option Nat)
    (process : Process) : ∃ s, Store.open d place capacity process = (s.disk, .ok s) := by
  have hdir := Tree.node?_of_createDirectories hmake (List.prefix_refl _)
  rw [artifactsPath_resolve] at hdir
  obtain ⟨scanned, found, hscan⟩ :=
    scan_ok (d := ⟨t, []⟩) rfl (ht.createDirectories hmake) hdir
  have hmade : d.change (·.createDirectories (artifactsPath place)) = (⟨t, []⟩, .ok ()) :=
    Disk.change_ok hd hmake
  simp only [Store.open, hmade, hscan]
  exact ⟨_, rfl⟩

theorem node?_deep (hcall : t.createDirectories (artifactsPath place) = .ok t')
    (hplace : Leads place.resolve (artifactsPath place)) (shard name : String) :
    t'.node? (artifactsPath place.resolve ++ [shard] ++ [name])
      = t.node? (artifactsPath place.resolve ++ [shard] ++ [name]) := by
  refine (Tree.node?_createDirectories hcall _).resolve_right fun hnew => ?_
  obtain ⟨-, -, taken, hpre, he⟩ := hnew
  have hlen := (hplace taken hpre (he ▸ inside_deep _ shard name)).length_le
  rw [← he, length_deep] at hlen
  omega

/-- To make the directories of a store changes nothing about what is named. -/
theorem named_createDirectories (ht : t.Tidy place.resolve)
    (hcall : t.createDirectories (artifactsPath place) = .ok t')
    (hplace : Leads place.resolve (artifactsPath place)) :
    Named place.resolve t' k n ↔ Named place.resolve t k n := by
  have hdeep := node?_deep hcall hplace
  constructor
  · rintro ⟨shard, -, name, node, hnode, hname, hlen⟩
    rw [hdeep] at hnode
    have hparent := ht.parents _ _ (inside_deep _ shard name) hnode
    rw [List.dropLast_concat] at hparent
    exact ⟨shard, hparent, name, node, hnode, hname, hlen⟩
  · rintro ⟨shard, hshard, name, node, hnode, hname, hlen⟩
    exact ⟨shard, Tree.Call.directory (.createDirectories hcall) hshard, name, node,
      (hdeep shard name).trans hnode, hname, hlen⟩

theorem fileLength?_createDirectories {p q : Path} (hcall : t.createDirectories p = .ok t') :
    t'.fileLength? q = t.fileLength? q := by
  apply Option.ext
  intro n
  simp only [Tree.fileLength?_eq_some, Tree.file_createDirectories hcall]

theorem named_of_file (ht : t.Tidy root) (h : t.fileLength? (artifactPath root k) = some n) :
    Named root t k n := by
  obtain ⟨content, hf, hlen⟩ := Tree.fileLength?_eq_some.mp h
  have hparent := ht.parents _ _ (inside_deep root k.shard _) hf
  rw [List.dropLast_concat] at hparent
  exact ⟨k.shard, hparent, _, _, hf, keyOfName?_artifact k, hlen⟩

/-- Every entry that is named as the file of a key tells of that file: it has its length. -/
def Placed (root : Path) (t : Tree) : Prop :=
  ∀ k n, Named root t k n → t.fileLength? (artifactPath root k) = some n

/-- What a store counts of the entries it tracks. -/
structure Tallies (s : Store) (held : KeyMap Nat) : Prop where
  tracked : s.recency.toList = held
  once : held.Once
  entries : s.stats.entries = held.length
  totalBytes : s.stats.totalBytes = (held.map (·.2)).sum

/-- Each key that is tracked has a file, of the length that is tracked for it. -/
def Truthful (s : Store) (held : KeyMap Nat) : Prop :=
  ∀ e ∈ held, s.has e.1 = true ∧ s.disk.tree.fileLength? (s.pathOf e.1) = some e.2

theorem Tallies.of_lists (h : s.recency.Lists held) : Tallies s held :=
  ⟨h.toList_eq, h.once, h.size_eq, h.totalBytes_eq⟩

theorem has_of_fileLength? (h : s.disk.tree.fileLength? (s.pathOf k) = some n) : s.has k = true := by
  obtain ⟨content, hf, -⟩ := Tree.fileLength?_eq_some.mp h
  exact Tree.isFile_eq_true.mpr ⟨content, hf⟩

/-- The entries that are named for keys, one for each key, have a number and lengths in sum of 64 bits. -/
def Countable (root : Path) (t : Tree) : Prop :=
  ∀ found : KeyMap Nat, found.Once → (∀ e ∈ found, Named root t e.1 e.2) →
    found.length + 1 < Recency.limit ∧ weight id found < Recency.limit

theorem trackingOps_room (hlength : order.length + 1 < Recency.limit) (hweight : weight id order < Recency.limit) :
    Recency.Room .empty (trackingOps capacity order) := by
  have hops : (trackingOps capacity order).length ≤ order.length + 1 := by
    cases capacity <;> simp [trackingOps]
  have hsizes : ((trackingOps capacity order).map Recency.Op.size).sum = weight id order := by
    cases capacity <;> simp [trackingOps, weight, Recency.Op.size, Function.comp_def]
  refine ⟨?_, ?_, fun k => ?_⟩
  · show 0 + _ < _
    omega
  · show 0 + _ < _
    omega
  · show 0 + _ < _
    omega

namespace Opening

theorem find?_of_mem (h : Opening made root capacity order s) (he : (k, n) ∈ fit id capacity order) :
    order.find? k = some n :=
  h.notes.once.find?_eq_some.mpr (KeyMap.mem_of_mem_fit he)

theorem checked (h : Opening made root capacity order s) (hcountable : Countable root made.tree) :
    ∃ answers, Recency.Op.runChecked .empty (trackingOps capacity order) = some (s.recency, answers) := by
  obtain ⟨hlength, hweight⟩ := hcountable order h.notes.once fun e he =>
    h.notes.right _ _ (h.notes.once.find?_eq_some.mpr he)
  have hroom : Recency.Room .empty (trackingOps capacity order) := trackingOps_room hlength hweight
  obtain ⟨r, -, answers, hchecked, hrun, -⟩ := Recency.Follows.empty.run hroom
  rw [h.recency_eq, hrun]
  exact ⟨answers, hchecked⟩

/-- A file that is there once the store is opened was named before, and there was room for it. -/
theorem exists_mem (h : Opening made root capacity order s) (ht : made.tree.Tidy root) (hd : made.refusals = [])
    (hk : s.has k = true) : ∃ n, (k, n) ∈ fit id capacity order := by
  obtain ⟨content, hf⟩ := Tree.isFile_eq_true.mp hk
  rw [pathOf, h.root_eq] at hf
  have hbefore : made.tree.fileLength? (artifactPath root k) = some content.length :=
    Tree.fileLength?_eq_some.mpr ⟨content, h.swept.thins.node?_eq_some hf, rfl⟩
  have hfound := h.notes.all k _ (named_of_file ht hbefore)
  cases hroom : (fit id capacity order).find? k with
  | some n => exact ⟨n, KeyMap.mem_of_find? hroom⟩
  | none =>
    have hgone := h.swept.cleared hd _ (.inr ⟨k, ⟨hfound, hroom⟩, rfl⟩)
    exact absurd hf (Tree.isFile_eq_false.mp hgone content)

theorem truthful (h : Opening made root capacity order s) (hplaced : Placed root made.tree) :
    Truthful s (fit id capacity order) := by
  intro e he
  obtain ⟨content, hf, hlen⟩ :=
    Tree.fileLength?_eq_some.mp (hplaced e.1 e.2 (h.notes.right _ _ (h.find?_of_mem he)))
  have hkept : s.disk.tree.fileLength? (s.pathOf e.1) = some e.2 := by
    refine Tree.fileLength?_eq_some.mpr ⟨content, ?_, hlen⟩
    rw [pathOf, h.root_eq, h.swept.kept _ ?_, hf]
    rintro (⟨shard, -, htemp⟩ | ⟨l, hdropped, hl⟩)
    · exact not_tempIn (keyOfName?_artifact e.1) htemp
    · have hroom := (h.notes.once.fit id capacity).find?_eq_some.mpr he
      rw [artifactPath_inj hl, hdropped.2] at hroom
      cases hroom
  exact ⟨has_of_fileLength? hkept, hkept⟩

theorem placed (h : Opening made root none order s)
    (hunique : ∀ k m n, Named root made.tree k m → Named root made.tree k n → m = n)
    (htruthful : Truthful s (fit id none order)) : Placed root made.tree := by
  intro k m hm
  obtain ⟨n, hn⟩ := Option.ne_none_iff_exists'.mp (h.notes.all k m hm)
  obtain rfl := hunique k m n hm (h.notes.right k n hn)
  obtain ⟨content, hf, hlen⟩ := Tree.fileLength?_eq_some.mp (htruthful (k, m) (KeyMap.mem_of_find? hn)).2
  rw [pathOf, h.root_eq] at hf
  exact Tree.fileLength?_eq_some.mpr ⟨content, h.swept.thins.node?_eq_some hf, hlen⟩

end Opening

/-- An opened store tracks keys that entries are named for, at least those that have a file of their own, and no
number leaves 64 bits on the way. If entries are named for such keys only, and have the lengths of those files, it
is right about each key it tracks; without a limit and with one length for each key, it is right in that case
only. -/
theorem tracks_named (ht : d.tree.Tidy place.resolve) (hplace : Leads place.resolve (artifactsPath place))
    (hcountable : Countable place.resolve d.tree) (ho : Store.open d place capacity process = (d', .ok s)) :
    ∃ held, Tallies s held ∧
      (∃ order answers, Recency.Op.runChecked .empty (trackingOps capacity order) = some (s.recency, answers)) ∧
      (∀ e ∈ held, Named place.resolve d.tree e.1 e.2) ∧
      (d.refusals = [] → ∀ k, s.has k = true → ∃ n, (k, n) ∈ held) ∧
      (Placed place.resolve d.tree → Truthful s held) ∧
      (capacity = none → (∀ k m n, Named place.resolve d.tree k m → Named place.resolve d.tree k n → m = n) →
        Truthful s held → Placed place.resolve d.tree) := by
  obtain ⟨made, order, hmade, hs⟩ := open_spec ht ho
  have hcall := Disk.change_eq_ok hmade
  -- to make the directories changes nothing about names and lengths
  have hnamed {k : CacheKey} {n : Nat} : Named place.resolve made.tree k n ↔ Named place.resolve d.tree k n :=
    named_createDirectories ht hcall hplace
  have hplaced : Placed place.resolve made.tree ↔ Placed place.resolve d.tree := by
    simp only [Placed, hnamed, fileLength?_createDirectories hcall]
  refine ⟨fit id capacity order, .of_lists hs.lists, ⟨order, hs.checked ?_⟩,
    fun e he => hnamed.mp (hs.notes.right _ _ (hs.find?_of_mem he)), fun hd k hk => ?_,
    fun hd => hs.truthful (hplaced.mpr hd), fun hcapacity hunique htruthful => ?_⟩
  · simpa only [Countable, hnamed] using hcountable
  · have hpermits : made.refusals = [] := by
      have hchange := hmade.symm.trans (Disk.change_ok hd hcall)
      rw [Prod.mk.injEq] at hchange
      rw [hchange.1]
    exact hs.exists_mem (ht.createDirectories hcall) hpermits hk
  · subst hcapacity
    exact hplaced.mp (hs.placed (fun k m n hm hn => hunique k m n (hnamed.mp hm) (hnamed.mp hn)) htruthful)

def sevens : CacheKey := ⟨⟨List.replicate 32 (UInt8.ofNat 7), rfl⟩⟩

/-- A file that is named for a key, in a directory of some name. -/
def directoryOf (shard : String) : Disk := ⟨[
  (["cache"], .directory), (["cache", "artifacts"], .directory), (["cache", "artifacts", shard], .directory),
  (["cache", "artifacts", shard, sevens.toHex ++ ".art"], .file [1, 2, 3])], []⟩

theorem exists_of_any {p : Store → Bool}
    (h : (Store.open d place capacity process).2.toOption.any p = true) :
    ∃ s, Store.open d place capacity process = (s.disk, .ok s) ∧ p s = true := by
  obtain ⟨s, hs, hp⟩ := (Option.any_eq_true _ _).mp h
  rcases ho : Store.open d place capacity process with ⟨d', e | s'⟩
  · rw [ho] at hs
    cases hs
  · rw [ho] at hs
    cases hs
    exact ⟨s, by rw [disk_open ho], hp⟩

theorem tracks_named_sevens : ∃ s, Store.open (directoryOf "07") ["cache"] none ⟨1, none⟩ = (s.disk, .ok s) ∧
    s.stats.entries = 1 ∧ ∃ held, Tallies s held ∧ Truthful s held := by
  have ht : (directoryOf "07").tree.Tidy (Path.resolve ["cache"]) :=
    .of_listed (by decide +kernel) (by decide +kernel)
  have hnamed : ∀ k n, Named (Path.resolve ["cache"]) (directoryOf "07").tree k n → k = sevens ∧ n = 3 := by
    rintro k n ⟨shard, -, name, node, hnode, hname, rfl⟩
    have hmem := (ht.mem_iff (inside_deep _ shard name)).mpr hnode
    rw [show Path.resolve ["cache"] = ["cache"] from rfl] at hmem
    obtain ⟨⟨rfl, rfl⟩, rfl⟩ : (shard = "07" ∧ name = sevens.toHex ++ ".art") ∧ node = .file [1, 2, 3] := by
      simpa [directoryOf, artifactsPath] using hmem
    exact ⟨Option.some.inj (hname.symm.trans (keyOfName?_artifact sevens)), rfl⟩
  have hplaced : Placed (Path.resolve ["cache"]) (directoryOf "07").tree := by
    intro k n hn
    obtain ⟨rfl, rfl⟩ := hnamed k n hn
    decide +kernel
  have hcountable : Countable (Path.resolve ["cache"]) (directoryOf "07").tree := by
    intro found honce hfound
    rcases found with _ | ⟨e, _ | ⟨e', rest⟩⟩
    · decide
    · have hlength := (hnamed _ _ (hfound e List.mem_cons_self)).2
      simp only [weight, List.map_cons, List.map_nil, List.sum_cons, List.sum_nil, id, hlength,
        List.length_singleton]
      decide
    · have hkey := (hnamed _ _ (hfound e List.mem_cons_self)).1
      have hkey' := (hnamed _ _ (hfound e' (List.mem_cons_of_mem e List.mem_cons_self))).1
      simp [KeyMap.Once, hkey, hkey'] at honce
  have hopen : (Store.open (directoryOf "07") ["cache"] none ⟨1, none⟩).2.toOption.any
      (fun s => s.stats.entries = 1) = true := by
    decide +kernel
  obtain ⟨s, ho, hentries⟩ := exists_of_any hopen
  obtain ⟨held, htallies, -, -, -, htruthful, -⟩ :=
    tracks_named ht (leads_artifactsPath (Path.straight_resolve ["cache"])) hcountable ho
  exact ⟨s, ho, of_decide_eq_true hentries, held, htallies, htruthful hplaced⟩

/-- In a directory of another name the file is tracked all the same, though it is not where its key
leads to. -/
theorem tracks_misplaced : ∃ s, Store.open (directoryOf "00") ["cache"] none ⟨1, none⟩ = (s.disk, .ok s) ∧
    s.recency.toList = [(sevens, 3)] ∧ s.stats.entries = 1 ∧ s.stats.totalBytes = 3 ∧
    s.has sevens = false := by
  have hopen : (Store.open (directoryOf "00") ["cache"] none ⟨1, none⟩).2.toOption.any
      (fun s => s.recency.toList = [(sevens, 3)] ∧ s.stats.entries = 1 ∧ s.stats.totalBytes = 3 ∧
        s.has sevens = false) = true := by
    decide +kernel
  obtain ⟨s, ho, hs⟩ := exists_of_any hopen
  exact ⟨s, ho, of_decide_eq_true hs⟩

end BuildCache.Store
