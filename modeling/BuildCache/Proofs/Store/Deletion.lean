import BuildCache.Proofs.Store.Tracking

/-! # Deletions that fail

The store gives up an entry before it deletes its file. So a deletion that fails loses just this entry: its file
stays where it is, and neither the total nor a later collection or eviction knows of it. -/
namespace BuildCache

variable {p : Path}

namespace Tree

variable {t t' : Tree} {e : Fault}

theorem lookup_congr (h : ∀ q, q <+: p → t'.node? q = t.node? q) : t'.lookup p = t.lookup p := by
  have hfile : ∀ n, t'.isFile (p.take n) = t.isFile (p.take n) := fun n => by
    rw [isFile, isFile, h _ (List.take_prefix n p)]
  simp only [lookup, absence, h p (List.prefix_refl p), hfile]

theorem removeFile_error_congr (h : ∀ q, q <+: p → t'.node? q = t.node? q) :
    t'.removeFile p = .error e ↔ t.removeFile p = .error e := by
  simp only [removeFile, lookup_congr h]
  rcases t.lookup p with fault | content | _
  · rfl
  · simp only [reduceCtorEq]
  · rfl

theorem node?_of_notFound (h : t.removeFile p = .error .notFound) : t.node? p = none := by
  cases hnode : t.node? p with
  | none => rfl
  | some node =>
    rw [removeFile, lookup_eq_ok.mpr hnode] at h
    cases node <;> cases h

end Tree

theorem Disk.change_error_cases {d d' : Disk} {action : Tree → Except Fault Tree} {e : Fault}
    (h : d.change action = (d', .error e)) : d.refusals ≠ [] ∧ e = .refused ∨ action d.tree = .error e := by
  simp only [change] at h
  split at h
  · next rest hrefused =>
    cases h
    exact .inl ⟨hrefused ▸ List.cons_ne_nil _ _, rfl⟩
  · split at h
    · cases h
    · next fault hfault =>
      cases h
      exact .inr hfault

namespace Store

open KeyMap (weight)

variable {root : Path} {d d' d'' : Disk} {s t u : Store} {gone : Bool} {k l : CacheKey}
    {keys cleared leaked : List CacheKey}
  {capacity : Option Nat} {process : Process}

/-- The file of a key cannot be deleted, and not for want of one. -/
def Blocked (root : Path) (d : Disk) (k : CacheKey) : Prop :=
  ∃ e, e ≠ .notFound ∧ d.tree.removeFile (artifactPath root k) = .error e

/-- The files of some keys were deleted, or there were none, and the deletion of others failed. -/
structure Deletes (root : Path) (d d' : Disk) (cleared leaked : List CacheKey) : Prop where
  nodes : ∀ p, d'.tree.node? p = if p ∈ cleared.map (artifactPath root) then none else d.tree.node? p
  permits : d.refusals = [] → d'.refusals = []
  stuck : d.refusals = [] → (∀ k ∈ leaked, Blocked root d k) ∧ ∀ k ∈ cleared, ¬Blocked root d k

namespace Deletes

theorem refl (root : Path) (d : Disk) : Deletes root d d [] [] :=
  ⟨fun _ => (if_neg List.not_mem_nil).symm, id, fun _ => ⟨List.forall_mem_nil _, List.forall_mem_nil _⟩⟩

/-- No artifact file is on the way to another one, so what blocks a deletion stays. -/
theorem blocked_iff (h : Deletes root d d' cleared leaked) (hk : k ∉ cleared) :
    Blocked root d' k ↔ Blocked root d k := by
  refine exists_congr fun e => and_congr_right fun _ => Tree.removeFile_error_congr fun q hq => ?_
  rw [h.nodes, if_neg]
  intro hmem
  obtain ⟨l, hl, rfl⟩ := List.mem_map.mp hmem
  have hsame : artifactPath root l = artifactPath root k :=
    hq.eq_of_length (by simp [artifactPath, shardPath, artifactsPath])
  exact hk (artifactPath_inj hsame ▸ hl)

theorem trans {cleared' leaked' : List CacheKey} (h : Deletes root d d' cleared leaked)
    (h' : Deletes root d' d'' cleared' leaked') (hnew : ∀ k ∈ cleared' ++ leaked', k ∉ cleared) :
    Deletes root d d'' (cleared ++ cleared') (leaked ++ leaked') := by
  refine ⟨fun p => ?_, fun hd => h'.permits (h.permits hd), fun hd => ?_⟩
  · rw [h'.nodes, h.nodes, List.map_append]
    by_cases hp : p ∈ cleared'.map (artifactPath root)
    · rw [if_pos hp, if_pos (List.mem_append_right _ hp)]
    · rw [if_neg hp]
      exact if_congr (by rw [List.mem_append, or_iff_left hp]) rfl rfl
  · obtain ⟨hleaked, hcleared⟩ := h.stuck hd
    obtain ⟨hleaked', hcleared'⟩ := h'.stuck (h.permits hd)
    refine ⟨fun k hk => ?_, fun k hk => ?_⟩
    · rcases List.mem_append.mp hk with hk | hk
      · exact hleaked k hk
      · exact (h.blocked_iff (hnew k (List.mem_append_right _ hk))).mp (hleaked' k hk)
    · rcases List.mem_append.mp hk with hk | hk
      · exact hcleared k hk
      · exact mt (h.blocked_iff (hnew k (List.mem_append_left _ hk))).mpr (hcleared' k hk)

end Deletes

theorem permits_deleteFile (s : Store) (k : CacheKey) (hd : s.disk.refusals = []) :
    (s.deleteFile k).1.disk.refusals = [] := by
  rw [deleteFile_fst]
  exact Disk.refusals_change hd _

theorem deletes_ok (h : s.deleteFile k = (t, .ok gone)) :
    Deletes s.root s.disk t.disk [k] [] := by
  have hpath : s.pathOf k ≠ [] := artifactPath_ne_nil _ _
  have hpermits := permits_deleteFile s k
  rw [h] at hpermits
  simp only [deleteFile] at h
  split at h
  · next d hd =>
    obtain ⟨rfl, -⟩ := Prod.mk.inj h
    have hok := Disk.change_eq_ok hd
    refine ⟨fun p => ?_, hpermits, fun _ => ⟨List.forall_mem_nil _, fun l hl => ?_⟩⟩
    · rw [Tree.removeFile_eq_ok hok, Tree.node?_erase _ hpath]
      simp only [List.map_singleton, List.mem_singleton, eq_comm, pathOf]
    · obtain rfl := List.mem_singleton.mp hl
      rintro ⟨e, -, he⟩
      rw [show s.disk.tree.removeFile (artifactPath s.root l) = _ from hok] at he
      cases he
  · next d hd =>
    obtain ⟨rfl, -⟩ := Prod.mk.inj h
    have hnone := (Disk.change_error_cases hd).resolve_left fun he => by cases he.2
    refine ⟨fun p => ?_, hpermits, fun _ => ⟨List.forall_mem_nil _, fun l hl => ?_⟩⟩
    · rw [Disk.change_eq_error hd]
      split
      · next hp =>
        rw [List.map_singleton, List.mem_singleton] at hp
        exact hp ▸ Tree.node?_of_notFound hnone
      · rfl
    · obtain rfl := List.mem_singleton.mp hl
      rintro ⟨e, hne, he⟩
      rw [show s.disk.tree.removeFile (artifactPath s.root l) = _ from hnone] at he
      exact hne (Except.error.inj he).symm
  · cases h

theorem deletes_error {e : CacheError} (h : s.deleteFile k = (t, .error e)) :
    Deletes s.root s.disk t.disk [] [k] := by
  have hpermits := permits_deleteFile s k
  rw [h] at hpermits
  simp only [deleteFile] at h
  split at h
  · cases h
  · cases h
  · next d fault hother hd =>
    obtain ⟨rfl, -⟩ := Prod.mk.inj h
    refine ⟨fun p => ?_, hpermits, fun hnone => ⟨fun l hl => ?_, List.forall_mem_nil _⟩⟩
    · rw [Disk.change_eq_error hd]
      exact (if_neg List.not_mem_nil).symm
    · obtain rfl := List.mem_singleton.mp hl
      have hfault := (Disk.change_error_cases hd).resolve_left fun he => he.1 hnone
      exact ⟨fault, hother, hfault⟩

def without (s : Store) (keys : List CacheKey) (d : Disk) : Store :=
  { s with disk := d, recency := s.recency.eraseAll keys }

theorem without_without (s : Store) (keys keys' : List CacheKey) (d d' : Disk) :
    (s.without keys d).without keys' d' = s.without (keys ++ keys') d' := by
  simp only [without, Recency.eraseAll, List.foldl_append]

theorem remove_eq_without {r : Except CacheError Bool} (h : s.remove k = (t, r)) : t = s.without [k] t.disk := by
  have hfst : (s.remove k).1 = s.without [k] (s.remove k).1.disk := by
    rw [remove, deleteFile_fst]
    rfl
  rwa [h] at hfst

theorem remove_ok (h : s.remove k = (t, .ok gone)) :
    t = s.without [k] t.disk ∧ Deletes s.root s.disk t.disk [k] [] :=
  ⟨remove_eq_without h, deletes_ok (s := { s with recency := s.recency.erase k }) h⟩

theorem remove_error {e : CacheError} (h : s.remove k = (t, .error e)) :
    t = s.without [k] t.disk ∧ Deletes s.root s.disk t.disk [] [k] :=
  ⟨remove_eq_without h, deletes_error (s := { s with recency := s.recency.erase k }) h⟩

theorem without_of_remove (hu : s.remove k = (u, .ok gone)) (ht : t = u.without keys t.disk)
    (hdeletes : Deletes u.root u.disk t.disk cleared leaked) (hnot : k ∉ cleared ++ leaked) :
    t = s.without (k :: keys) t.disk ∧ Deletes s.root s.disk t.disk (k :: cleared) leaked := by
  obtain ⟨heq, hfirst⟩ := remove_ok hu
  rw [heq, without_without] at ht
  have hroot : u.root = s.root := by
    rw [heq]
    rfl
  rw [hroot] at hdeletes
  exact ⟨ht, hfirst.trans hdeletes fun l hl hk => hnot (List.mem_singleton.mp hk ▸ hl)⟩

theorem sweep_ok (hn : keys.Nodup) {removed total : Nat} (h : s.sweep removed keys = (t, .ok total)) :
    t = s.without keys t.disk ∧ Deletes s.root s.disk t.disk keys [] := by
  induction keys generalizing s removed with
  | nil =>
    cases h
    exact ⟨rfl, .refl _ _⟩
  | cons k keys ih =>
    obtain ⟨hnot, hrest⟩ := List.nodup_cons.mp hn
    rw [sweep] at h
    split at h
    · next u gone hu =>
      obtain ⟨ht, hdeletes⟩ := ih hrest h
      exact without_of_remove hu ht hdeletes (by rwa [List.append_nil])
    · cases h

/-- A sweep ends at the first deletion that fails; the keys after it are kept. -/
theorem sweep_error (hn : keys.Nodup) {removed : Nat} {e : CacheError}
    (h : s.sweep removed keys = (t, .error e)) :
    ∃ before k after, keys = before ++ k :: after ∧ t = s.without (before ++ [k]) t.disk ∧
      Deletes s.root s.disk t.disk before [k] := by
  induction keys generalizing s removed with
  | nil => cases h
  | cons k keys ih =>
    obtain ⟨hnot, hrest⟩ := List.nodup_cons.mp hn
    rw [sweep] at h
    split at h
    · next u gone hu =>
      obtain ⟨before, l, after, rfl, ht, hdeletes⟩ := ih hrest h
      refine ⟨k :: before, l, after, rfl, without_of_remove hu ht hdeletes fun hk => hnot ?_⟩
      rw [List.append_cons]
      exact List.mem_append_left _ hk
    · next u fault hu =>
      cases h
      exact ⟨[], k, keys, rfl, remove_error hu⟩

theorem exists_evictFiles (hn : keys.Nodup) (s : Store) : ∃ cleared leaked d,
    (cleared ++ leaked).Perm keys ∧ Deletes s.root s.disk d cleared leaked ∧ keys.foldl evictFile s =
      { s with disk := d, counters.evictions := s.counters.evictions + cleared.length } := by
  induction keys generalizing s with
  | nil => exact ⟨[], [], s.disk, .refl _, .refl _ _, rfl⟩
  | cons k keys ih =>
    obtain ⟨hnot, hrest⟩ := List.nodup_cons.mp hn
    have hfst := deleteFile_fst s k
    rw [List.foldl_cons, evictFile]
    split
    · next u gone hu =>
      rw [hu] at hfst
      obtain ⟨cleared, leaked, d, hperm, hdeletes, hfold⟩ :=
        ih hrest { u with counters.evictions := u.counters.evictions + 1 }
      have hnew : ∀ l ∈ cleared ++ leaked, l ∉ [k] := fun l hl hk =>
        hnot (List.mem_singleton.mp hk ▸ hperm.subset hl)
      have hroot : u.root = s.root := by rw [show u = _ from hfst]
      refine ⟨k :: cleared, leaked, d, hperm.cons k, (deletes_ok hu).trans (hroot ▸ hdeletes) hnew, ?_⟩
      rw [hfold, show u = _ from hfst, List.length_cons, Nat.add_comm cleared.length, Nat.add_assoc]
    · next u e hu =>
      rw [hu] at hfst
      obtain ⟨cleared, leaked, d, hperm, hdeletes, hfold⟩ := ih hrest u
      have hroot : u.root = s.root := by rw [show u = _ from hfst]
      refine ⟨cleared, k :: leaked, d, List.perm_middle.trans (hperm.cons k),
        (deletes_error hu).trans (hroot ▸ hdeletes) fun _ _ => List.not_mem_nil, ?_⟩
      rw [hfold, show u = _ from hfst]

/-- What is left when the files of `cleared` were deleted and the deletion of those of `leaked` failed. -/
structure GivesUp (s t : Store) (cleared leaked : List CacheKey) : Prop where
  /-- An entry whose path is still taken stays tracked with its size, unless its own deletion failed. -/
  keeps : ∀ k size, (k, size) ∈ s.recency.toList → t.disk.tree.node? (s.pathOf k) ≠ none → k ∉ leaked →
    (k, size) ∈ t.recency.toList
  /-- The paths of deleted files are free, and all else on disk is as it was. -/
  nodes : ∀ p, t.disk.tree.node? p = if p ∈ cleared.map s.pathOf then none else s.disk.tree.node? p
  apart : ∀ k ∈ leaked, k ∉ cleared
  /-- Neither kind is tracked any more; the others keep their sizes and their order. -/
  entries : t.recency.toList = s.recency.toList.filter fun e => !(cleared ++ leaked).contains e.1
  total : t.recency.totalBytes = weight id t.recency.toList
  pins : t.recency.pins = s.recency.pins
  /-- If no call is refused, those deletions fail whose path is blocked, and no others. -/
  stuck : s.disk.refusals = [] → (∀ k ∈ leaked, Blocked s.root s.disk k) ∧ ∀ k ∈ cleared, ¬Blocked s.root s.disk k

theorem GivesUp.of_deletes (h : s.recency.Tracked) (hr : t.recency = s.recency.eraseAll keys)
    (hdeletes : Deletes s.root s.disk t.disk cleared leaked) (hkeys : (cleared ++ leaked).Perm keys)
    (hn : keys.Nodup) : GivesUp s t cleared leaked := by
  obtain ⟨m, hm⟩ := h
  have hleft := hm.eraseAll keys
  have hentries : t.recency.toList = s.recency.toList.filter fun e => !(cleared ++ leaked).contains e.1 := by
    rw [hr, hleft.toList_eq, hm.toList_eq]
    exact List.filter_congr fun e _ => by rw [hkeys.contains_eq]
  refine ⟨fun k size hk hnode hnot => ?_, hdeletes.nodes, fun k hk hcleared => ?_, hentries, ?_, ?_, hdeletes.stuck⟩
  · rw [hentries]
    refine List.mem_filter.mpr ⟨hk, ?_⟩
    have hcleared : k ∉ cleared := fun hmem => hnode <| by
      rw [hdeletes.nodes]
      exact if_pos (List.mem_map_of_mem hmem)
    simp [hcleared, hnot]
  · exact (List.nodup_append.mp (hkeys.nodup_iff.mpr hn)).2.2 k hcleared k hk rfl
  · rw [hr, hleft.totalBytes_eq, hleft.toList_eq]
  · rw [hr, Recency.pins_eraseAll]

def doomed (s : Store) (live : List CacheKey) : List CacheKey :=
  (s.recency.toList.map (·.1)).filter fun k => !(live.contains k) && !(s.recency.isPinned k)

def outdated (s : Store) : List CacheKey :=
  (s.capacity.map fun capacity => (s.recency.evictOver capacity).2).getD []

theorem nodup_doomed (h : s.recency.Tracked) (live : List CacheKey) : (s.doomed live).Nodup := by
  obtain ⟨m, hm⟩ := h
  rw [doomed, hm.toList_eq]
  exact List.Nodup.filter _ hm.once

theorem evict_eq_foldl (s : Store) : s.evict =
    s.outdated.foldl evictFile { s with recency := s.recency.eraseAll s.outdated } := by
  obtain ⟨disk, root, _ | capacity, recency, counters, process, nextTemp⟩ := s
  · rfl
  · simp only [evict, outdated, Option.map_some, Option.getD_some, Recency.evictOver]
    split <;> rfl

theorem nodup_outdated (h : s.recency.Tracked) : s.outdated.Nodup := by
  obtain ⟨m, hm⟩ := h
  rw [outdated]
  cases s.capacity with
  | none => exact List.nodup_nil
  | some capacity =>
    simp only [Option.map_some, Option.getD_some, Recency.evictOver]
    split
    · exact List.nodup_nil
    · rw [hm.keys_order]
      exact (List.Nodup.filter _ hm.once).sublist (Recency.victims_front _ _ _).sublist

/-- An entry is lost to a deletion that fails, and it is the only one: a removal loses the key it was called
for, a collection the one that it stops at, and an eviction those whose files it cannot delete. All other
entries that are still on disk stay tracked. -/
theorem gives_up (h : s.recency.Reached) :
    (∀ k, match s.remove k with
      | (t, .ok _) => GivesUp s t [k] []
      | (t, .error _) => GivesUp s t [] [k]) ∧
    (∀ live, match s.gc live with
      | (t, .ok _) => GivesUp s t (s.doomed live) []
      | (t, .error _) => ∃ before k after, s.doomed live = before ++ k :: after ∧ GivesUp s t before [k]) ∧
    ∃ cleared leaked, (cleared ++ leaked).Perm s.outdated ∧ GivesUp s s.evict cleared leaked ∧
      s.evict.counters = { s.counters with evictions := s.counters.evictions + cleared.length } := by
  have htracked := h.tracked
  refine ⟨fun k => ?_, fun live => ?_, ?_⟩
  · have hn : [k].Nodup := List.nodup_singleton k
    split
    · next t gone ht =>
      obtain ⟨heq, hdeletes⟩ := remove_ok ht
      exact .of_deletes htracked (congrArg recency heq) hdeletes (.refl _) hn
    · next t e ht =>
      obtain ⟨heq, hdeletes⟩ := remove_error ht
      exact .of_deletes htracked (congrArg recency heq) hdeletes (.refl _) hn
  · have hn := nodup_doomed htracked live
    split
    · next t count ht =>
      obtain ⟨heq, hdeletes⟩ := sweep_ok hn ht
      exact .of_deletes htracked (congrArg recency heq) hdeletes (by rw [List.append_nil]) hn
    · next t e ht =>
      obtain ⟨before, k, after, hsplit, heq, hdeletes⟩ := sweep_error hn ht
      refine ⟨before, k, after, hsplit, .of_deletes htracked (congrArg recency heq) hdeletes (.refl _) ?_⟩
      rw [hsplit, List.append_cons] at hn
      exact hn.of_append_left
  · have hn := nodup_outdated htracked
    obtain ⟨cleared, leaked, d, hperm, hdeletes, hfold⟩ :=
      exists_evictFiles hn { s with recency := s.recency.eraseAll s.outdated }
    rw [evict_eq_foldl, hfold]
    exact ⟨cleared, leaked, hperm, .of_deletes htracked rfl hdeletes hperm hn, rfl⟩

/-- The path of an artifact has been taken by a directory. -/
def obstructed : Disk := ⟨[
  (["cache"], .directory), (["cache", "artifacts"], .directory), (["cache", "artifacts", "07"], .directory),
  (["cache", "artifacts", "07", sevens.toHex ++ ".art"], .directory)], []⟩

theorem gives_up_obstructed : ∃ s, Store.open obstructed ["cache"] none ⟨1, none⟩ = (s.disk, .ok s) ∧
    s.recency.Reached ∧ GivesUp s (s.remove sevens).1 [] [sevens] := by
  have hopen : (Store.open obstructed ["cache"] none ⟨1, none⟩).2.toOption.any
      (fun s => (s.remove sevens).2.isOk = false) = true := by
    decide +kernel
  obtain ⟨s, ho, hs⟩ := exists_of_any hopen
  have hfails : (s.remove sevens).2.isOk = false := of_decide_eq_true hs
  have hreached := reached_open ho
  refine ⟨s, ho, hreached, ?_⟩
  have hgives := (gives_up hreached).1 sevens
  rcases hr : s.remove sevens with ⟨t, e | gone⟩
  · rwa [hr] at hgives
  · rw [hr] at hfails
    cases hfails

/-- A key was tracked, something is still at its path, and it is tracked no more. -/
def Leaks (s t : Store) (k : CacheKey) : Prop :=
  s.recency.contains k = true ∧ t.disk.tree.node? (s.pathOf k) ≠ none ∧ t.recency.contains k = false

instance (s t : Store) (k : CacheKey) : Decidable (Leaks s t k) := inferInstanceAs (Decidable (_ ∧ _ ∧ _))

/-- A removal, a collection and an eviction that fail to delete what is at a path lose track of it. -/
theorem deletion_leaks : ∃ s, Store.open obstructed ["cache"] none ⟨1, none⟩ = (s.disk, .ok s) ∧
    s.stats.totalBytes = 4096 ∧
    ((s.remove sevens).2.isOk = false ∧ Leaks s (s.remove sevens).1 sevens ∧
      (s.remove sevens).1.stats.totalBytes = 0) ∧
    ((s.gc []).2.isOk = false ∧ Leaks s (s.gc []).1 sevens) ∧
    Leaks s (evict { s with capacity := some 0 }) sevens := by
  have hopen : (Store.open obstructed ["cache"] none ⟨1, none⟩).2.toOption.any
      (fun s => s.stats.totalBytes = 4096 ∧
        ((s.remove sevens).2.isOk = false ∧ Leaks s (s.remove sevens).1 sevens ∧
          (s.remove sevens).1.stats.totalBytes = 0) ∧
        ((s.gc []).2.isOk = false ∧ Leaks s (s.gc []).1 sevens) ∧
        Leaks s (evict { s with capacity := some 0 }) sevens) = true := by
    decide +kernel
  obtain ⟨s, ho, hs⟩ := exists_of_any hopen
  exact ⟨s, ho, of_decide_eq_true hs⟩

end Store
end BuildCache
