import Mathlib
import BuildCache.Proofs.Store.Mirrors

/-! # From an empty directory on, the store is the bounded map -/
namespace BuildCache.Store

variable {d : Disk} {root : Path} {entries : KeyMap Artifact} {t : Tree}

/-- There are no entries to list in a directory below which there is nothing. -/
theorem list_eq_nil {p : Path} (hdir : t.node? p = some .directory)
    (hbare : ∀ q n, t.node? q = some n → q ≠ [] → q.dropLast ≠ p) : t.list p = .ok [] := by
  have hnone : t.filterMap (Tree.entryName? p) = [] := List.filterMap_eq_nil_iff.mpr fun e he => by
    simp only [Tree.entryName?]
    cases hlast : e.1.getLast? with
    | none => rfl
    | some name =>
      have hne : e.1 ≠ [] := fun hnil => by
        rw [hnil] at hlast
        cases hlast
      obtain ⟨n, hn⟩ := Tree.exists_node? he hne
      exact if_neg (hbare e.1 n hn hne)
  rw [Tree.list, Tree.lookup_eq_ok.mpr hdir]
  simp only [hnone, List.mergeSort_nil]

theorem reconcile_nil : reconcile [] none = .empty := by
  simp [reconcile, takeIndexed]

theorem fit_nil (capacity : Option Nat) : Lru.fit capacity [] = [] := by
  cases capacity with
  | none => rfl
  | some limit => rfl

theorem Vacant.opened (hd : d.refusals = []) (h : Vacant root d.tree) (capacity : Option Nat)
    (process : Process) :
    ∃ d' s, Store.open d root capacity process = (d', .ok s) ∧ Mirrors capacity root.resolve s .empty := by
  obtain ⟨tree, hmade, hstowed, honly⟩ := h.createDirectories
  have hmake : d.change (·.createDirectories (artifactsPath root)) = (⟨tree, []⟩, .ok ()) :=
    Disk.change_ok hd hmade
  have hlist : tree.list (artifactsPath root.resolve) = .ok [] := by
    apply list_eq_nil (hstowed.way _ (List.prefix_refl _))
    intro q n hn hnil he
    have hlen := congrArg List.length he
    rw [List.length_dropLast, length_artifactsPath] at hlen
    have hbelow : root.resolve <+: q :=
      (Stowed.root_prefix_artifacts _).trans (he ▸ List.dropLast_prefix q)
    have hq := honly q n hbelow (ne_of_length_ne (by omega)) hn
    rw [hq, length_artifactsPath] at hlen
    omega
  have hscan : scan ⟨tree, []⟩ root.resolve = (⟨tree, []⟩, .ok []) := by
    rw [scan, Disk.look_eq rfl, hlist]
    rfl
  have hindex : tree.node? (root.resolve ++ [Index.fileName]) = none := by
    by_contra hne
    obtain ⟨n, hn⟩ := Option.ne_none_iff_exists'.mp hne
    have hq := honly _ n (List.prefix_append _ _) (ne_of_length_ne (by simp)) hn
    exact absurd (List.append_cancel_left hq) (by decide)
  have hload : Index.load ⟨tree, []⟩ root.resolve = (⟨tree, []⟩, none) := by
    rw [Index.load, Disk.look_eq rfl, Tree.read, Tree.lookup, hindex]
  let made : Store := ⟨⟨tree, []⟩, root.resolve, capacity, .empty, ⟨0, 0, 0, 0, 0⟩, process, 0⟩
  have hopen : Store.open d root capacity process = (made.evict.disk, .ok made.evict) := by
    simp only [Store.open, hmake, hscan, hload, reconcile_nil]
    rfl
  obtain ⟨tree', recency, hevict, hkept, hlists⟩ := evict_eq (s := made) rfl hstowed Recency.lists_empty
  rw [fit_nil] at hkept hlists hevict
  refine ⟨_, _, hopen, ?_⟩
  rw [hevict]
  exact ⟨rfl, rfl, rfl, hkept, hlists, rfl, fun e he => by cases he⟩

/-- What the calls on a store left of it, beside what they left of the bounded map. -/
structure Follows (root : Path) (s : Store) (m : Lru) : Prop where
  stats : s.stats = m.stats
  files : ∀ p content, artifactsPath root <+: p →
    (s.disk.tree.node? p = some (.file content) ↔
      ∃ e ∈ m.entries, p = artifactPath root e.1 ∧ content = e.2.encode)

theorem Mirrors.follows {capacity : Option Nat} {s : Store} {m : Lru} (h : Mirrors capacity root s m) :
    Follows root s m := by
  refine ⟨h.stats_eq, fun p content hp => ?_⟩
  rw [← h.root_eq] at hp ⊢
  exact h.stowed.file_iff h.once hp

/-- A store that is opened on an empty directory, and whose calls on the disk succeed, gives the
answers, the statistics and the files of a bounded map that drops what was least recently used. What it finds
is what was stored, but for leap seconds within a minute, which are given back as the seconds after them. -/
theorem refines_lru (hd : d.refusals = []) (h : Vacant root d.tree) (capacity : Option Nat)
    (process : Process) :
    ∃ d' s, Store.open d root capacity process = (d', .ok s) ∧ ∀ ops : List Op, (∀ op ∈ ops, op.Sized) →
      (Op.run Op.onStore s ops).2 = (Op.run (Op.onLru capacity) .empty ops).2 ∧
      Follows root.resolve (Op.run Op.onStore s ops).1 (Op.run (Op.onLru capacity) .empty ops).1 := by
  obtain ⟨d', s, hopen, hmirrors⟩ := h.opened hd capacity process
  refine ⟨d', s, hopen, fun ops hops => ?_⟩
  obtain ⟨hanswers, hlast⟩ := hmirrors.run hops
  exact ⟨hanswers, hlast.follows⟩

def emptyDirectory : Disk := ⟨[(["cache"], .directory)], []⟩

theorem vacant_emptyDirectory : Vacant ["cache"] emptyDirectory.tree := by
  refine .of_directory (fun q hq => ?_) fun p hp hne => ?_
  · rcases List.prefix_cons_iff.mp hq with rfl | ⟨rest, rfl, hrest⟩
    · rfl
    · rw [List.prefix_nil.mp hrest]
      rfl
  · have hnil : p ≠ [] := fun he => by
      rw [he] at hp
      cases List.prefix_nil.mp hp
    have hother : ["cache"] ≠ p := fun he => hne he.symm
    simp [Tree.node?_eq _ hnil, emptyDirectory, hother]

def sample (n : UInt8) : Artifact := ⟨⟨⟨List.replicate 32 n, rfl⟩⟩, .newYear, [n]⟩

/-- An artifact that was read is kept, and the one stored before it goes. -/
def sampleCalls : List Op := [
  .put (sample 1).key (sample 1), .put (sample 2).key (sample 2), .get (sample 1).key,
  .put (sample 3).key (sample 3), .has (sample 2).key, .remove (sample 1).key]

theorem refines_lru_over_capacity : ∃ d s, Store.open emptyDirectory ["cache"] (some 250) ⟨1, none⟩ = (d, .ok s) ∧
    (Op.run Op.onStore s sampleCalls).2 = [.done (.ok ()), .done (.ok ()), .found (.ok (some (sample 1))),
      .done (.ok ()), .whether (.ok false), .whether (.ok true)] ∧
    Follows ["cache"] (Op.run Op.onStore s sampleCalls).1
      (Op.run (Op.onLru (some 250)) .empty sampleCalls).1 := by
  obtain ⟨d, s, hopen, hruns⟩ := refines_lru rfl vacant_emptyDirectory (some 250) ⟨1, none⟩
  have hsized : ∀ op ∈ sampleCalls, op.Sized := by
    simp [sampleCalls, Op.Sized, Artifact.size, sample, Bytes.range]
  obtain ⟨hanswers, hfollows⟩ := hruns sampleCalls hsized
  refine ⟨d, s, hopen, ?_, hfollows⟩
  rw [hanswers]
  cbv

/-- An artifact from a leap second within a minute is not found as it was stored. -/
theorem leap_second_moved : ∃ d s, Store.open emptyDirectory ["cache"] none ⟨1, none⟩ = (d, .ok s) ∧
    ∃ a, (Op.run Op.onStore s [.put a.key a, .get a.key]).2 = [.done (.ok ()), .found (.ok (some a.reread))] ∧
      a.createdAt.second = 86164 ∧ a.reread.createdAt.second = 86165 := by
  obtain ⟨d, s, hopen, hmirrors⟩ := vacant_emptyDirectory.opened rfl none ⟨1, none⟩
  let a := Artifact.offbeat
  have hsized : ∀ op ∈ [Op.put a.key a, .get a.key], op.Sized := by
    simp [a, Op.Sized, Artifact.size, Artifact.offbeat, Bytes.range]
  refine ⟨d, s, hopen, a, ?_, rfl, by decide⟩
  rw [(hmirrors.run hsized).1]
  simp [Op.run, Op.onLru, Lru.put, Lru.get, Lru.fit, Lru.empty, KeyMap.find?, Prod.map]

end BuildCache.Store
