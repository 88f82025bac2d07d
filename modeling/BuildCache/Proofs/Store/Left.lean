import BuildCache.Proofs.Index
import BuildCache.Proofs.Store.Reopen
import BuildCache.Proofs.Store.Sound

/-! # Opening what stores left: the files are trusted, and the index for their order only -/
namespace BuildCache.Store

open KeyMap (fit)

variable {place root p : Path} {capacity : Option Nat} {s t : Store} {d : Disk} {op : Op} {k : CacheKey}
  {content : Bytes} {order kept : KeyMap Nat}

/-- The file of an artifact that is stored has a length in 64 bits. -/
def Op.Fits : Op → Prop
  | put _ a => a.encode.length < Bytes.range 8
  | get _ | has _ | remove _ | gc _ | saveIndex => True

theorem Op.Fits.sized (h : op.Fits) : op.Sized := by
  cases op with
  | put k a =>
    refine Nat.lt_of_le_of_lt ?_ h
    simp only [Artifact.size, Artifact.encode, List.length_append]
    omega
  | get | has | remove | gc | saveIndex => trivial

/-- The places beside the artifacts and of temporary files, where anything may have been written. -/
def Loose (root p : Path) : Prop := Beside root p ∨ Scratch root p

/-- What stores leave of a place where none was before. They may run side by side, and calls on the disk
may fail at any time. The index, and what is left of temporary files, may be anything. -/
inductive Left (place : Path) : Tree → Prop
  | vacant {t : Tree} (h : Vacant place t) : Left place t
  | opened {d : Disk} (h : Left place d.tree) (capacity : Option Nat) (process : Process) :
      Left place (Store.open d place capacity process).1.tree
  | call {s : Store} (h : Left place s.disk.tree) (hroot : s.root = place.resolve) {op : Op}
      (hop : op.Fits) : Left place (op.onStore s).1.disk.tree
  | written {t t' : Tree} {p : Path} {content : Bytes} (h : Left place t) (hp : Loose place.resolve p)
      (ht : t.write p content = .ok t') : Left place t'
  | removed {t t' : Tree} {p : Path} (h : Left place t) (hp : Loose place.resolve p)
      (ht : t.removeFile p = .ok t') : Left place t'

theorem Loose.filePlace (h : Loose root p) : FilePlace root p := by
  rcases h with h | h
  · exact .inl h
  · exact .inr (.inl h)

theorem Loose.ne_artifactPath (h : Loose root p) (k : CacheKey) : p ≠ artifactPath root k := by
  rcases h with h | h
  · exact h.ne_artifactPath k
  · rintro rfl
    exact not_scratch_artifactPath root k h

theorem Left.laid {t : Tree} (h : Left place t) : Laid place t := by
  induction h with
  | vacant h => exact .of_vacant h
  | @opened d h capacity process ih => exact ih.does (does_open d ih.leads capacity process)
  | @call s h hroot op hop ih =>
    have hdoes := op.does (s := s) (hroot ▸ Path.straight_resolve place)
    rw [hroot] at hdoes
    exact ih.does hdoes
  | written h hp ht ih => exact ih.makes (.write hp.filePlace ht)
  | removed h hp ht ih => exact ih.makes (.removeFile ht)

theorem Op.file_onStore
    (h : (op.onStore s).1.disk.tree.node? (artifactPath s.root k) = some (.file content)) :
    s.disk.tree.node? (artifactPath s.root k) = some (.file content) ∨
      ∃ a, op = .put k a ∧ a.key = k ∧ content = a.encode := by
  cases op with
  | put l a =>
    rcases file_put h with h | ⟨rfl, hkey, hcontent⟩
    · exact .inl h
    · exact .inr ⟨a, rfl, hkey, hcontent⟩
  | get l => exact .inl ((thins_get s l).node?_eq_some h)
  | has l => exact .inl h
  | remove l => exact .inl ((thins_remove s l).node?_eq_some h)
  | gc live => exact .inl ((thins_sweep s 0 _).node?_eq_some h)
  | saveIndex => exact .inl ((Shrinks.saveIndex s).files k content h)

/-- At the place of a key there is an artifact of that key or nothing. -/
def Genuine (root : Path) (t : Tree) : Prop :=
  ∀ k content, t.node? (artifactPath root k) = some (.file content) →
    ∃ a : Artifact, a.key = k ∧ content = a.encode ∧ content.length < Bytes.range 8

theorem Left.genuine {t : Tree} (h : Left place t) : Genuine place.resolve t := by
  induction h with
  | vacant h =>
    intro k content hf
    rw [h.bare _ (Stowed.root_prefix_artifact _ k) (ne_of_length_ne (by simp))] at hf
    cases hf
  | @opened d h capacity process ih =>
    intro k content hf
    have hmade := (thins_open d place capacity process).node?_eq_some hf
    exact ih k content (Disk.file_change (fun t ht => (Tree.file_createDirectories ht).mp) hmade)
  | @call s h hroot op hop ih =>
    intro k content hf
    rw [← hroot] at hf ih
    rcases Op.file_onStore hf with hold | ⟨a, rfl, hkey, rfl⟩
    · exact ih k content hold
    · exact ⟨a, hkey, rfl, hop⟩
  | @written t t' p content h hp ht ih =>
    intro k content' hf
    rw [Tree.write_eq_ok ht, Tree.node?_put _ hp.filePlace.inside.ne_nil, if_neg (hp.ne_artifactPath k)] at hf
    exact ih k content' hf
  | removed h hp ht ih =>
    intro k content hf
    rcases Tree.node?_removeFile ht (artifactPath place.resolve k) with he | ⟨-, -, hnone⟩
    · exact ih k content (he ▸ hf)
    · rw [hnone] at hf
      cases hf

theorem Genuine.exists_held {t : Tree} (h : Genuine root t) : ∃ held : CacheKey → Option Artifact,
    (∀ k, t.content? (artifactPath root k) = (held k).map (·.encode)) ∧
      ∀ k a, held k = some a → a.key = k ∧ a.size < Bytes.range 8 := by
  have hheld : ∀ k, ∃ o : Option Artifact, t.content? (artifactPath root k) = o.map (·.encode) ∧
      ∀ a, o = some a → a.key = k ∧ a.size < Bytes.range 8 := fun k => by
    cases hc : t.content? (artifactPath root k) with
    | none => exact ⟨none, rfl, fun a ha => by cases ha⟩
    | some content =>
      obtain ⟨a, hkey, rfl, hlength⟩ := h k content (Tree.content?_eq_some.mp hc)
      refine ⟨some a, rfl, fun a' ha => ?_⟩
      cases ha
      exact ⟨hkey, (show (Op.put k a).Fits from hlength).sized⟩
  choose held hcontent hvalid using hheld
  exact ⟨held, hcontent, hvalid⟩

theorem Laid.write_index {t : Tree} (h : Laid place t) (hroot : t.node? place.resolve = some .directory)
    (content : Bytes) : ∃ t', t.write (place.resolve ++ [Index.fileName]) content = .ok t' ∧
      t'.content? (place.resolve ++ [Index.fileName]) = some content ∧
      ∀ k, t'.content? (artifactPath place.resolve k) = t.content? (artifactPath place.resolve k) := by
  have hplace := beside_index place.resolve
  have hnil := (FilePlace.inside (.inl hplace)).ne_nil
  have hfree : t.node? (place.resolve ++ [Index.fileName]) ≠ some .directory := fun hdir => by
    rcases h.inside _ _ (FilePlace.inside (.inl hplace)) hdir with ⟨⟨_, hfile⟩, -⟩ | ⟨-, hother⟩
    · cases hfile
    · exact hplace.not_directory hother
  refine ⟨_, Tree.write_ok (by rwa [hplace.dropLast_eq]) hfree, ?_, fun k => ?_⟩
  · apply Tree.content?_eq_some.mpr
    rw [Tree.node?_put _ hnil, if_pos rfl]
  · rw [Tree.content?, Tree.node?_put _ hnil, if_neg (hplace.ne_artifactPath k)]
    rfl

/-- The shortest front part of an order is given up with which the rest keeps a capacity. -/
def Trims : Option Nat → KeyMap Nat → KeyMap Nat → Prop
  | none, order, kept => kept = order
  | some limit, order, kept => ∃ n, kept = order.drop n ∧ (kept.map (·.2)).sum ≤ limit ∧
      ∀ j < n, limit < ((order.drop j).map (·.2)).sum

theorem trims_fit (capacity : Option Nat) (order : KeyMap Nat) : Trims capacity order (fit id capacity order) := by
  cases capacity with
  | none => rfl
  | some limit =>
    obtain ⟨n, htrim, hle, hleast⟩ := KeyMap.exists_trim_eq_drop id limit order
    refine ⟨n, htrim, ?_, fun j hj => ?_⟩
    · rw [show fit id (some limit) order = order.drop n from htrim]
      exact hle
    · by_contra hnot
      exact absurd (hleast j (Nat.le_of_not_lt hnot)) (Nat.not_le_of_lt hj)

/-- A store that was opened tracks the end of an order for which there is room. What is not tracked is
deleted, and so are the temporary files among the artifacts. -/
structure Reopened (place : Path) (capacity : Option Nat) (t : Tree) (order : KeyMap Nat) (s : Store) :
    Prop where
  root_eq : s.root = place.resolve
  capacity_eq : s.capacity = capacity
  tracks : Trims capacity order s.recency.toList
  files : ∀ p content, s.disk.tree.node? p = some (.file content) ↔
    t.node? p = some (.file content) ∧ ¬Scratch place.resolve p ∧
      ∀ k, p = artifactPath place.resolve k → k ∈ s.recency.toList.map (·.1)

theorem Laid.Restores.reopened {t : Tree} (h : Laid.Restores place capacity t order s) :
    Reopened place capacity t order s where
  root_eq := h.root_eq
  capacity_eq := h.capacity_eq
  tracks := by
    rw [h.lists.toList_eq]
    exact trims_fit capacity order
  files := by
    intro p content
    simp only [h.files, h.lists.toList_eq, ne_eq, KeyMap.find?_eq_none, not_not]

/-- When a store saves its index and another is opened on its directory, that one has its order. -/
def SavesOrder (place : Path) (s : Store) : Prop :=
  ∃ t, s.saveIndex = (t, .ok ()) ∧ ∀ capacity process, ∃ u,
    Store.open t.disk place capacity process = (u.disk, .ok u) ∧
      Trims capacity s.recency.toList u.recency.toList

/-- The entries of a store are those of its directory, if its index was saved. -/
theorem Settled.ranks {m : Lru} (h : Settled capacity place s m)
    (hindex : indexOf s.disk.tree place.resolve = some (.ofEntries s.recency.toList)) :
    Ranks place s.disk.tree s.recency.toList where
  once := h.once
  finds := h.find?_toList
  ordered := ⟨[], by rw [hindex, indexed_ofEntries h.once, List.append_nil], .nil⟩

theorem Settled.savesOrder {m : Lru} (h : Settled capacity place s m) (hleft : Left place s.disk.tree) :
    SavesOrder place s := by
  obtain ⟨t, hsave, -⟩ := h.mirrors.saveIndex
  have hlast : s.saveIndex.1 = t := congrArg Prod.fst hsave
  have ht : Settled capacity place t m := hlast ▸ h.call (show Op.saveIndex.Sized from trivial)
  have hrecency : t.recency = s.recency := congrArg (·.1.recency) hsave.symm
  have hsized : ∀ e ∈ s.recency.toList, e.2 < Bytes.range 8 := fun e he => by
    have hfind := h.once.find?_eq_some.mpr he
    rw [h.find?_toList, Tree.fileLength?_eq_some] at hfind
    obtain ⟨content, hf, hlength⟩ := hfind
    obtain ⟨a, -, -, hlt⟩ := hleft.genuine e.1 content hf
    exact hlength ▸ hlt
  have hindex : indexOf t.disk.tree place.resolve = some (.ofEntries t.recency.toList) := by
    have hwritten : Index.save s.disk s.root s.process.number (.ofEntries s.recency.toList) = (t.disk, .ok ()) :=
      Prod.ext (congrArg (·.1.disk) hsave) (congrArg (·.2) hsave)
    rw [indexOf, ← h.mirrors.root_eq, Index.content?_save hwritten, Option.bind_some,
      Index.ofFile?_render hsized, hrecency]
  refine ⟨t, hsave, fun limit process => ?_⟩
  obtain ⟨u, order, hopen, hu⟩ := ht.laid.opens ht.mirrors.refusals limit process
  obtain rfl : t.recency.toList = order := hu.toRanks.eq (ht.ranks hindex)
  exact ⟨u, hopen, hrecency ▸ hu.reopened.tracks⟩

/-- Calls that no disk refuses keep a store settled, and its directory is one that stores left. -/
theorem Settled.run {m : Lru} {ops : List Op} (h : Settled capacity place s m)
    (hleft : Left place s.disk.tree) (hops : ∀ op ∈ ops, op.Fits) :
    (∃ m, Settled capacity place (Op.run Op.onStore s ops).1 m) ∧
      Left place (Op.run Op.onStore s ops).1.disk.tree := by
  induction ops generalizing s m with
  | nil => exact ⟨⟨m, h⟩, hleft⟩
  | cons op ops ih =>
    obtain ⟨hop, hops⟩ := List.forall_mem_cons.mp hops
    exact ih (h.call hop.sized) (hleft.call h.mirrors.root_eq hop) hops

/-- A directory that stores left can be opened whatever its index holds. The artifact files are what is
tracked, in the order of the index and then of their keys, and as many of the first of them are given up
as a capacity demands. An index that is saved later gives back the order of the store, and any other
index gives another order of the same entries. -/
theorem trusts_files (h : Left place d.tree) (hd : d.refusals = []) :
    (∃ order, Ranks place d.tree order ∧ ∀ capacity process, ∃ s,
      Store.open d place capacity process = (s.disk, .ok s) ∧ Reopened place capacity d.tree order s ∧
        ∀ ops : List Op, (∀ op ∈ ops, op.Fits) → SavesOrder place (Op.run Op.onStore s ops).1) ∧
    ∀ d' : Disk, Left place d'.tree → d'.refusals = [] →
      (∀ k, d'.tree.content? (artifactPath place.resolve k)
        = d.tree.content? (artifactPath place.resolve k)) →
      ∀ process process', ∃ s s', Store.open d place none process = (s.disk, .ok s) ∧
        Store.open d' place none process' = (s'.disk, .ok s') ∧ s'.recency.toList.Perm s.recency.toList := by
  constructor
  · obtain ⟨first, order, -, hfirst⟩ := h.laid.opens hd none ⟨0, none⟩
    refine ⟨order, hfirst.toRanks, fun capacity process => ?_⟩
    obtain ⟨s, order', hopen, hs⟩ := h.laid.opens hd capacity process
    obtain rfl : order' = order := hfirst.toRanks.eq hs.toRanks
    refine ⟨s, hopen, hs.reopened, fun ops hops => ?_⟩
    obtain ⟨held, hheld, hvalid⟩ := h.genuine.exists_held
    obtain ⟨m, hm, -⟩ := hs.settled (becomes_open hopen).2 hheld hvalid
    have hleft : Left place s.disk.tree := by
      have := h.opened capacity process
      rwa [hopen] at this
    obtain ⟨⟨m', hm'⟩, hlast⟩ := hm.run hleft hops
    exact hm'.savesOrder hlast
  · intro d' h' hd' hsame process process'
    obtain ⟨s, order, hopen, hs⟩ := h.laid.opens hd none process
    obtain ⟨s', order', hopen', hs'⟩ := h'.laid.opens hd' none process'
    refine ⟨s, s', hopen, hopen', ?_⟩
    rw [hs.lists.toList_eq, hs'.lists.toList_eq]
    refine hs.toRanks.perm hs'.toRanks fun k => ?_
    rw [Tree.fileLength?, Tree.fileLength?, hsame]

theorem exists_damaged : ∃ t : Tree, Left ["cache"] t ∧ t.content? ["cache", "index.json"] = some [0x7b] ∧
    ∀ k, t.content? (artifactPath ["cache"] k)
      = (KeyMap.find? [((sample 2).key, sample 2), ((sample 1).key, sample 1)] k).map (·.encode) := by
  obtain ⟨d, s, hopen, hs⟩ := Settled.opened rfl vacant_emptyDirectory none ⟨1, none⟩
  have hleft : Left ["cache"] s.disk.tree := by
    have := (Left.vacant vacant_emptyDirectory).opened (d := emptyDirectory) none ⟨1, none⟩
    rwa [hopen, disk_open hopen] at this
  have hsecond : (Op.put (sample 2).key (sample 2)).Fits := by cbv
  have hfirst : (Op.put (sample 1).key (sample 1)).Fits := by cbv
  have hboth := (hs.call hsecond.sized).call hfirst.sized
  obtain ⟨t, hwrite, hindex, hothers⟩ :=
    hboth.laid.write_index (hboth.way ["cache"] (List.prefix_refl _)) [0x7b]
  have hlast := (hleft.call hs.mirrors.root_eq hsecond).call (hs.call hsecond.sized).mirrors.root_eq hfirst
  exact ⟨t, hlast.written (.inl (beside_index _)) hwrite, hindex, fun k =>
    (hothers k).trans (hboth.content?_artifact k)⟩

/-- They come in the order of their keys, though the second one was stored first. -/
theorem trusts_files_damaged : ∃ d : Disk, (Left ["cache"] d.tree ∧ d.refusals = []) ∧
    d.tree.content? ["cache", "index.json"] = some [0x7b] ∧
    ∃ s, Store.open d ["cache"] none ⟨2, none⟩ = (s.disk, .ok s) ∧
      s.recency.toList = [((sample 1).key, 114), ((sample 2).key, 114)] := by
  obtain ⟨t, hleft, hindex, hfiles⟩ := exists_damaged
  have hlengths : [((sample 1).key, 114), ((sample 2).key, 114)]
      = KeyMap.mapValues Lru.bytes [((sample 1).key, sample 1), ((sample 2).key, sample 2)] := by
    have hbytes : Lru.bytes (sample 1) = 114 ∧ Lru.bytes (sample 2) = 114 := by constructor <;> cbv
    rw [KeyMap.mapValues, List.map_cons, List.map_cons, hbytes.1, hbytes.2, List.map_nil]
  have honce : KeyMap.Once [((sample 2).key, sample 2), ((sample 1).key, sample 1)] := by
    rw [KeyMap.Once]
    decide
  have hranks : Ranks ["cache"] t [((sample 1).key, 114), ((sample 2).key, 114)] := by
    refine ⟨by rw [KeyMap.Once]; decide, fun k => ?_, [((sample 1).key, 114), ((sample 2).key, 114)], ?_, ?_⟩
    · rw [hlengths, KeyMap.find?_mapValues, honce.find?_perm (.swap _ _ _), Tree.fileLength?]
      exact ((congrArg _ (hfiles k)).trans (Option.map_map ..)).symm
    · rw [indexOf, show t.content? (Path.resolve ["cache"] ++ [Index.fileName]) = _ from hindex]
      rfl
    · decide
  obtain ⟨⟨order, horder, hopens⟩, -⟩ := trusts_files (d := ⟨t, []⟩) hleft rfl
  obtain ⟨s, hs, hreopened, -⟩ := hopens none ⟨2, none⟩
  exact ⟨⟨t, []⟩, ⟨hleft, rfl⟩, hindex, s, hs, hreopened.tracks.trans (hranks.eq horder)⟩

end BuildCache.Store
