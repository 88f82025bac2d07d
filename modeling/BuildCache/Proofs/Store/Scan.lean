import BuildCache.Proofs.Disk.Tidy
import BuildCache.Proofs.Recency
import BuildCache.Proofs.Store.Stowed

/-! # Scans note what is named as the file of a key, and any index gives an order of it -/
namespace BuildCache.Store

variable {root dir dir' : Path} {t : Tree} {d d' : Disk} {found found' : KeyMap Nat} {k : CacheKey} {n : Nat}
  {named named' : CacheKey → Nat → Prop}

theorem length_deep (root : Path) (shard name : String) :
    (artifactsPath root ++ [shard] ++ [name]).length = root.length + 3 := by simp

theorem inside_deep (root : Path) (shard name : String) :
    Path.Inside root (artifactsPath root ++ [shard] ++ [name]) :=
  ⟨(Stowed.root_prefix_artifacts root).trans ((List.prefix_append _ _).trans (List.prefix_append _ _)),
    ne_of_length_ne (by simp; omega)⟩

/-- All keys that are named are noted, each once and with a length that is named for it. -/
structure Notes (named : CacheKey → Nat → Prop) (found : KeyMap Nat) : Prop where
  once : found.Once
  right : ∀ k n, found.find? k = some n → named k n
  all : ∀ k n, named k n → found.find? k ≠ none

namespace Notes

theorem nil : Notes (fun _ _ => False) [] :=
  ⟨List.nodup_nil, fun _ _ h => (by cases h), fun _ _ h => h.elim⟩

theorem congr (h : Notes named found) (hsame : ∀ k n, named k n ↔ named' k n) : Notes named' found :=
  ⟨h.once, fun k n hk => (hsame k n).mp (h.right k n hk), fun k n hk => h.all k n ((hsame k n).mpr hk)⟩

theorem perm (h : Notes named found) (hp : found'.Perm found) : Notes named found' := by
  refine ⟨h.once.perm hp, fun k n hk => ?_, fun k n hk => ?_⟩
  · rw [h.once.find?_perm hp] at hk
    exact h.right k n hk
  · rw [h.once.find?_perm hp]
    exact h.all k n hk

theorem insert (h : Notes named found) (k : CacheKey) (n : Nat) :
    Notes (fun l m => named l m ∨ k = l ∧ n = m) (found.insert k n) := by
  refine ⟨?_, fun l m hl => ?_, fun l m hl => ?_⟩
  · refine KeyMap.Once.cons_iff.mpr ⟨?_, h.once.erase k⟩
    rw [KeyMap.find?_erase, if_pos rfl]
  · rw [KeyMap.find?_insert] at hl
    split at hl
    · next he => exact .inr ⟨he, Option.some.inj hl⟩
    · exact .inl (h.right l m hl)
  · rw [KeyMap.find?_insert]
    split
    · simp
    · next hkl => exact h.all l m (hl.resolve_right fun he => hkl he.1)

end Notes

/-- An entry of a directory is named as the file of a key, and has a length. -/
def NamedIn (t : Tree) (dir : Path) (k : CacheKey) (n : Nat) : Prop :=
  ∃ name node, t.node? (dir ++ [name]) = some node ∧ keyOfName? name = some k ∧ lengthOf node = n

/-- A place right in a directory has the name of a temporary file. -/
def TempIn (dir q : Path) : Prop := ∃ name, isTemp name = true ∧ q = dir ++ [name]

theorem not_tempIn {name : String} (h : keyOfName? name = some k) : ¬TempIn dir (dir' ++ [name]) := by
  rintro ⟨other, htemp, he⟩
  obtain rfl : name = other := (List.cons.inj (List.append_inj' he rfl).2).1
  rw [isTemp_eq_false h] at htemp
  cases htemp

theorem namedIn_iff (h : ∀ q, (∀ dir, ¬TempIn dir q) → d'.tree.node? q = d.tree.node? q) :
    NamedIn d'.tree dir k n ↔ NamedIn d.tree dir k n := by
  have hsame : ∀ name, keyOfName? name = some k →
      d'.tree.node? (dir ++ [name]) = d.tree.node? (dir ++ [name]) :=
    fun name hname => h _ fun _ => not_tempIn hname
  constructor
  · rintro ⟨name, node, hnode, hname, hlen⟩
    exact ⟨name, node, hsame name hname ▸ hnode, hname, hlen⟩
  · rintro ⟨name, node, hnode, hname, hlen⟩
    exact ⟨name, node, (hsame name hname).trans hnode, hname, hlen⟩

theorem notes_scanShard {acc : Disk × KeyMap Nat} (h : Notes named acc.2) (e : String × Node) :
    Notes (fun k n => named k n ∨ keyOfName? e.1 = some k ∧ lengthOf e.2 = n) (scanShard dir acc e).2 := by
  simp only [scanShard]
  split
  · next k hk =>
    exact (h.insert k (lengthOf e.2)).congr fun l m => by rw [hk, Option.some.injEq]
  · next hnone =>
    have hsame : ∀ l m, named l m ↔ named l m ∨ keyOfName? e.1 = some l ∧ lengthOf e.2 = m := fun l m => by
      simp [hnone]
    split
    · exact h.congr hsame
    · exact h.congr hsame

theorem swept_scanShard (acc : Disk × KeyMap Nat) (e : String × Node) :
    Disk.Swept (fun q => isTemp e.1 = true ∧ q = dir ++ [e.1]) acc.1 (scanShard dir acc e).1 := by
  simp only [scanShard]
  split
  · next k hk =>
    refine (Disk.Swept.refl acc.1).mono (fun _ h => h.elim) fun q hq _ => ?_
    rw [isTemp_eq_false hk] at hq
    exact Bool.false_ne_true hq.1
  · split
    · next htemp =>
      exact (acc.1.swept_removeFile _).mono (fun q hq => ⟨htemp, hq.symm⟩) fun q hq _ => hq.2.symm
    · next htemp => exact (Disk.Swept.refl acc.1).mono (fun _ h => h.elim) fun q hq _ => htemp hq.1

theorem notes_foldl {acc : Disk × KeyMap Nat} (h : Notes named acc.2) (entries : List (String × Node)) :
    Notes (fun k n => named k n ∨ ∃ e ∈ entries, keyOfName? e.1 = some k ∧ lengthOf e.2 = n)
      (entries.foldl (scanShard dir) acc).2 := by
  induction entries generalizing acc named with
  | nil => exact h.congr fun k n => by simp
  | cons e entries ih =>
    refine (ih (notes_scanShard h e)).congr fun k n => ?_
    rw [List.exists_mem_cons_iff, or_assoc]

theorem swept_foldl (dir : Path) (entries : List (String × Node)) (acc : Disk × KeyMap Nat) :
    Disk.Swept (fun q => ∃ e ∈ entries, isTemp e.1 = true ∧ q = dir ++ [e.1]) acc.1
      (entries.foldl (scanShard dir) acc).1 := by
  induction entries generalizing acc with
  | nil => exact (Disk.Swept.refl acc.1).mono (fun _ h => h.elim) fun q hq _ => by simp at hq
  | cons e entries ih =>
    refine ((swept_scanShard acc e).trans (ih _)).mono (fun q hq => ?_) fun q hq _ => ?_
    · exact (List.exists_mem_cons_iff _ _ _).mpr hq
    · exact (List.exists_mem_cons_iff _ _ _).mp hq

theorem scan_dir (ht : d.tree.Tidy root) (hroot : root <+: dir) (hdir : d.tree.node? dir = some .directory)
    {entries : List (String × Node)} (hlist : d.tree.list dir = .ok entries) (h : Notes named found)
    (htree : d'.tree = d.tree) (hd : d.refusals = [] → d'.refusals = []) :
    Notes (fun k n => named k n ∨ NamedIn d.tree dir k n) (entries.foldl (scanShard dir) (d', found)).2 ∧
      Disk.Swept (TempIn dir) d (entries.foldl (scanShard dir) (d', found)).1 := by
  obtain ⟨listed, hlisted, hmem⟩ := ht.list_eq hroot hdir
  obtain rfl : entries = listed := Except.ok.inj (hlist.symm.trans hlisted)
  constructor
  · refine (notes_foldl h entries).congr fun k n => or_congr_right ?_
    constructor
    · rintro ⟨⟨name, node⟩, he, hname, hlen⟩
      exact ⟨name, node, (hmem _ _).mp he, hname, hlen⟩
    · rintro ⟨name, node, hnode, hname, hlen⟩
      exact ⟨(name, node), (hmem _ _).mpr hnode, hname, hlen⟩
  · refine ((Disk.Swept.of_tree htree hd).trans (swept_foldl dir entries (d', found))).mono (fun q hq => ?_)
      fun q hq hfile => ?_
    · obtain ⟨e, -, htemp, hq⟩ := hq.resolve_left id
      exact ⟨e.1, htemp, hq⟩
    · obtain ⟨name, htemp, rfl⟩ := hq
      obtain ⟨content, hnode⟩ := Tree.isFile_eq_true.mp hfile
      exact .inr ⟨(name, .file content), (hmem _ _).mpr hnode, htemp, rfl⟩

theorem scanShards_spec (ht : d.tree.Tidy root) {shards : List (String × Node)}
    (hshards : ∀ name, (name, .directory) ∈ shards →
      d.tree.node? (artifactsPath root ++ [name]) = some .directory)
    (h : Notes named found) (hok : scanShards (artifactsPath root) found d shards = (d', .ok found')) :
    Notes (fun k n => named k n ∨
        ∃ name, (name, .directory) ∈ shards ∧ NamedIn d.tree (artifactsPath root ++ [name]) k n) found' ∧
      Disk.Swept (fun q => ∃ name, (name, .directory) ∈ shards ∧ TempIn (artifactsPath root ++ [name]) q)
        d d' := by
  induction shards generalizing d found named with
  | nil =>
    cases hok
    refine ⟨h.congr fun k n => by simp, (Disk.Swept.refl _).mono (fun _ h => h.elim) fun q hq _ => ?_⟩
    obtain ⟨name, hmem, -⟩ := hq
    cases hmem
  | cons e shards ih =>
    have hrest : ∀ name, (name, .directory) ∈ shards →
        d.tree.node? (artifactsPath root ++ [name]) = some .directory := fun name hmem =>
      hshards name (List.mem_cons_of_mem _ hmem)
    obtain ⟨name, content | _⟩ := e
    · obtain ⟨hnotes, hswept⟩ := ih ht hrest h hok
      have hmem : ∀ other, (other, Node.directory) ∈ (name, .file content) :: shards ↔
          (other, .directory) ∈ shards := fun other => by simp
      simp only [hmem]
      exact ⟨hnotes, hswept⟩
    · have hbelow : root <+: artifactsPath root ++ [name] :=
        (Stowed.root_prefix_artifacts root).trans (List.prefix_append _ _)
      simp only [scanShards] at hok
      split at hok
      · cases hok
      · next looked entries hlook =>
        obtain ⟨hlist, htree, hd⟩ := Disk.look_eq_ok hlook
        obtain ⟨hnotes, hswept⟩ :=
          scan_dir ht hbelow (hshards name List.mem_cons_self) hlist h htree hd
        have hnext := hswept.thins.becomes
        obtain ⟨hall, hrestSwept⟩ := ih (ht.becomes hnext) (fun other hmem =>
          hnext.directory (hrest other hmem)) hnotes hok
        refine ⟨hall.congr fun k n => ?_, (hswept.trans hrestSwept).mono (fun q hq => ?_) fun q hq _ => ?_⟩
        · have hsame : ∀ dir, NamedIn _ dir k n ↔ NamedIn d.tree dir k n := fun dir =>
            namedIn_iff fun q hq => hswept.kept q (hq _)
          simp only [hsame, List.mem_cons, Prod.mk.injEq, and_true, or_and_right, exists_or,
            exists_eq_left, or_assoc]
        · rcases hq with hq | ⟨other, hmem, hq⟩
          · exact ⟨name, List.mem_cons_self, hq⟩
          · exact ⟨other, List.mem_cons_of_mem _ hmem, hq⟩
        · obtain ⟨other, hmem, hq⟩ := hq
          rcases List.mem_cons.mp hmem with he | hmem
          · cases he
            exact .inl hq
          · exact .inr ⟨other, hmem, hq⟩

theorem scanShards_ok (hd : d.refusals = []) (ht : d.tree.Tidy root) {shards : List (String × Node)}
    (hshards : ∀ name, (name, .directory) ∈ shards →
      d.tree.node? (artifactsPath root ++ [name]) = some .directory) (found : KeyMap Nat) :
    ∃ d' found', scanShards (artifactsPath root) found d shards = (d', .ok found') := by
  induction shards generalizing d found with
  | nil => exact ⟨d, found, rfl⟩
  | cons e shards ih =>
    have hrest : ∀ name, (name, .directory) ∈ shards →
        d.tree.node? (artifactsPath root ++ [name]) = some .directory := fun name hmem =>
      hshards name (List.mem_cons_of_mem _ hmem)
    obtain ⟨name, content | _⟩ := e
    · exact ih hd ht hrest found
    · have hbelow : root <+: artifactsPath root ++ [name] :=
        (Stowed.root_prefix_artifacts root).trans (List.prefix_append _ _)
      obtain ⟨entries, hlist, -⟩ := ht.list_eq hbelow (hshards name List.mem_cons_self)
      have hswept := swept_foldl (artifactsPath root ++ [name]) entries (d, found)
      have hnext := hswept.thins.becomes
      simp only [scanShards]
      rw [Disk.look_eq hd, hlist]
      exact ih (hswept.permits hd) (ht.becomes hnext) (fun other hmem => hnext.directory (hrest other hmem)) _

/-- In a directory right below that of the artifacts an entry is named as the file of a key. -/
def Named (root : Path) (t : Tree) (k : CacheKey) (n : Nat) : Prop :=
  ∃ shard, t.node? (artifactsPath root ++ [shard]) = some .directory ∧
    NamedIn t (artifactsPath root ++ [shard]) k n

/-- A place in a directory right below that of the artifacts has the name of a temporary file. -/
def Temp (root : Path) (t : Tree) (q : Path) : Prop :=
  ∃ shard, t.node? (artifactsPath root ++ [shard]) = some .directory ∧
    TempIn (artifactsPath root ++ [shard]) q

/-- A scan notes what is named and removes the temporary files. -/
theorem scan_spec (ht : d.tree.Tidy root)
    (hdir : d.tree.node? (artifactsPath root) = some .directory) (hok : scan d root = (d', .ok found)) :
    Notes (Named root d.tree) found ∧ Disk.Swept (Temp root d.tree) d d' := by
  obtain ⟨shards, hlist, hshards⟩ := ht.list_eq (Stowed.root_prefix_artifacts root) hdir
  simp only [scan] at hok
  split at hok
  · cases hok
  · next looked listed hlook =>
    obtain ⟨hlisted, htree, hd⟩ := Disk.look_eq_ok hlook
    obtain rfl : listed = shards := Except.ok.inj (hlisted.symm.trans hlist)
    have hmem : ∀ name, (name, .directory) ∈ listed ↔
        looked.tree.node? (artifactsPath root ++ [name]) = some .directory := fun name => by
      rw [htree, hshards]
    obtain ⟨hnotes, hswept⟩ := scanShards_spec (htree ▸ ht) (fun name => (hmem name).mp) .nil hok
    refine ⟨hnotes.congr fun k n => ?_, ((Disk.Swept.of_tree htree hd).trans hswept).mono (fun q hq => ?_)
      fun q hq _ => ?_⟩
    · simp only [false_or, hmem, htree]
      rfl
    · obtain ⟨shard, hshard, hq⟩ := hq.resolve_left id
      exact ⟨shard, htree ▸ (hmem shard).mp hshard, hq⟩
    · obtain ⟨shard, hshard, hq⟩ := hq
      exact .inr ⟨shard, (hmem shard).mpr (htree.symm ▸ hshard), hq⟩

theorem scan_ok (hd : d.refusals = []) (ht : d.tree.Tidy root)
    (hdir : d.tree.node? (artifactsPath root) = some .directory) :
    ∃ d' found, scan d root = (d', .ok found) := by
  obtain ⟨shards, hlist, hshards⟩ := ht.list_eq (Stowed.root_prefix_artifacts root) hdir
  simp only [scan]
  rw [Disk.look_eq hd, hlist]
  exact scanShards_ok hd ht (fun name => (hshards name .directory).mp) []

theorem foldl_insert_lists {r : Recency} {l rest : KeyMap Nat} (h : r.Lists l)
    (honce : KeyMap.Once (l ++ rest)) :
    (rest.foldl (fun r e => r.insert e.1 e.2) r).Lists (l ++ rest) := by
  induction rest generalizing r l with
  | nil => rwa [List.append_nil]
  | cons e rest ih =>
    have hsub : (l ++ [e]).Sublist (l ++ e :: rest) := ((List.nil_sublist rest).cons_cons e).append_left l
    have hlast : KeyMap.Once (l ++ [e]) := List.Nodup.sublist (hsub.map _) honce
    have hnone := (KeyMap.Once.cons_iff.mp (hlast.perm (List.perm_append_singleton e l).symm)).1
    have hnext := h.insert e.1 e.2
    rw [KeyMap.erase_eq_self hnone] at hnext
    have := ih hnext (by simpa using honce)
    simpa using this

/-- The keys of an index in its order, each where it comes first, with their lengths as far as they
have one. -/
def indexed (length? : CacheKey → Option Nat) (index : Option Index) : KeyMap Nat :=
  (((index.map (·.entries)).getD []).map (·.1)).eraseDups.filterMap fun k => (length? k).map (k, ·)

private theorem eraseDups_eq_self {keys : List CacheKey} (h : keys.Nodup) : keys.eraseDups = keys := by
  induction keys with
  | nil => rfl
  | cons k keys ih =>
    obtain ⟨hk, hkeys⟩ := List.nodup_cons.mp h
    have hothers : keys.filter (!· == k) = keys := List.filter_eq_self.mpr fun l hl => by
      have hne : l ≠ k := fun he => hk (he ▸ hl)
      simp [hne]
    rw [List.eraseDups_cons, hothers, ih hkeys]

theorem indexed_ofEntries {order : KeyMap Nat} (h : order.Once) :
    indexed order.find? (some (.ofEntries order)) = order := by
  have hkeys : indexed order.find? (some (.ofEntries order))
      = (order.map (·.1)).filterMap fun k => (order.find? k).map (k, ·) := by
    rw [← eraseDups_eq_self h]
    rfl
  have hfind : ∀ e ∈ order, (order.find? e.1).map (e.1, ·) = some e := fun e he => by
    rw [h.find?_eq_some.mpr he]
    rfl
  rw [hkeys, List.filterMap_map]
  exact (List.filterMap_congr hfind).trans List.filterMap_some

private theorem filterMap_eraseDups {β : Type} {f : CacheKey → Option β} (hk : f k = none)
    (keys : List CacheKey) :
    (keys.filter (!· == k)).eraseDups.filterMap f = keys.eraseDups.filterMap f := by
  induction hn : keys.length using Nat.strong_induction_on generalizing keys with
  | _ n ih =>
    cases keys with
    | nil => rfl
    | cons l rest =>
      rw [List.eraseDups_cons]
      by_cases hl : l = k
      · subst hl
        rw [List.filterMap_cons_none hk, List.filter_cons_of_neg (by simp)]
      · have hshort : (rest.filter (!· == l)).length < n := by
          have := List.length_filter_le (!· == l) rest
          rw [List.length_cons] at hn
          omega
        have hrest := ih _ hshort _ rfl
        rw [List.filter_comm] at hrest
        rw [List.filter_cons_of_pos (by simpa using hl), List.eraseDups_cons, List.filterMap_cons,
          List.filterMap_cons, hrest]

/-- Some entries are taken over in the order of the index, and the others are left. -/
theorem takeIndexed_eq (h : found.Once) (r : Recency) (entries : List (CacheKey × Nat)) :
    ∃ taken : KeyMap Nat,
      taken = (entries.map (·.1)).eraseDups.filterMap (fun k => (found.find? k).map (k, ·)) ∧
      (takeIndexed r found entries).1 = taken.foldl (fun r e => r.insert e.1 e.2) r ∧
      (taken ++ (takeIndexed r found entries).2).Perm found := by
  induction entries generalizing r found with
  | nil => exact ⟨[], rfl, rfl, .refl _⟩
  | cons e entries ih =>
    obtain ⟨k, length⟩ := e
    simp only [takeIndexed, List.map_cons]
    rw [List.eraseDups_cons]
    cases hk : found.find? k with
    | some size =>
      obtain ⟨taken, htaken, hfold, hperm⟩ := ih (h.erase k) (r.insert k size)
      refine ⟨(k, size) :: taken, ?_, hfold,
        (hperm.cons (k, size)).trans (h.perm_cons_erase hk).symm⟩
      have hnone : ((found.erase k).find? k).map (k, ·) = none := by
        rw [KeyMap.find?_erase, if_pos rfl]
        rfl
      rw [List.filterMap_cons, hk, htaken, ← filterMap_eraseDups hnone]
      refine congrArg _ (List.filterMap_congr fun l hl => ?_)
      have hne : k ≠ l := fun he => by simp [he] at hl
      rw [KeyMap.find?_erase, if_neg hne]
    | none =>
      obtain ⟨taken, htaken, hfold, hperm⟩ := ih h r
      refine ⟨taken, ?_, hfold, hperm⟩
      have hnone : (found.find? k).map (k, ·) = none := by rw [hk]; rfl
      rw [List.filterMap_cons, hk, htaken]
      exact (filterMap_eraseDups hnone _).symm

theorem pairwise_mergeSort {rest : KeyMap Nat} (h : rest.Once) :
    (rest.mergeSort fun a b => !(b.1 < a.1)).Pairwise (·.1 < ·.1) := by
  have hle : ∀ a b : CacheKey × Nat, (!decide (b.1 < a.1)) = true ↔ a.1.bytes ≤ b.1.bytes := fun a b => by
    rw [Bool.not_eq_true', decide_eq_false_iff_not]
    exact List.not_lt
  have hsorted : (rest.mergeSort fun a b => !(b.1 < a.1)).Pairwise fun a b => a.1.bytes ≤ b.1.bytes := by
    refine (List.pairwise_mergeSort (fun a b c hab hbc => ?_) (fun a b => ?_) rest).imp (hle _ _).mp
    · exact (hle a c).mpr (List.le_trans ((hle a b).mp hab) ((hle b c).mp hbc))
    · rw [Bool.or_eq_true, hle, hle]
      exact List.le_total _ _
  have honce : (rest.mergeSort fun a b => !(b.1 < a.1)).Pairwise fun a b => a.1 ≠ b.1 :=
    List.pairwise_map.mp (h.perm (List.mergeSort_perm _ _))
  refine (hsorted.and honce).imp fun {a b} hab => ?_
  by_contra hnot
  have hbytes : a.1.bytes = b.1.bytes := List.le_antisymm hab.1 (List.not_lt.mp hnot)
  exact hab.2 (CacheKey.bytes_injective hbytes)

/-- Whatever index there is, all entries that were found are tracked, each once: those of the index in
its order, then the others in the order of their keys. -/
theorem reconcile_lists (h : found.Once) (index : Option Index) :
    ∃ others : KeyMap Nat, (indexed found.find? index ++ others).Perm found ∧
      others.Pairwise (·.1 < ·.1) ∧
      (reconcile found index).Lists (indexed found.find? index ++ others) ∧
      reconcile found index
        = (indexed found.find? index ++ others).foldl (fun r e => r.insert e.1 e.2) .empty := by
  obtain ⟨taken, htaken, hfold, hperm⟩ := takeIndexed_eq h .empty ((index.map (·.entries)).getD [])
  let rest := (takeIndexed .empty found ((index.map (·.entries)).getD [])).2
  let others := rest.mergeSort fun a b => !(b.1 < a.1)
  have hall : (taken ++ others).Perm found :=
    ((List.mergeSort_perm rest _).append_left taken).trans hperm
  have hrest : rest.Once := by
    have honce : (taken ++ rest).Once := h.perm hperm
    exact List.Nodup.sublist ((List.sublist_append_right taken rest).map _) honce
  rw [indexed, ← htaken]
  have hlists := foldl_insert_lists Recency.lists_empty
    (show KeyMap.Once ([] ++ (taken ++ others)) from h.perm hall)
  have heq : reconcile found index = (taken ++ others).foldl (fun r e => r.insert e.1 e.2) .empty := by
    rw [List.foldl_append, ← hfold]
    rfl
  exact ⟨others, hall, pairwise_mergeSort hrest, heq ▸ hlists, heq⟩

end BuildCache.Store
