import BuildCache.Proofs.Store.Layout
import BuildCache.Proofs.Store.Refinement

/-! # Stores that are left alone keep what they hold, also when they are opened again -/
namespace BuildCache.Store

variable {place : Path} {capacity : Option Nat} {s t : Store} {m : Lru} {k : CacheKey} {a : Artifact}
  {op : Op}

/-- A store is like a bounded map, its directory is tidy, and the way to that leads along directories. -/
structure Settled (capacity : Option Nat) (place : Path) (s : Store) (m : Lru) : Prop where
  mirrors : Mirrors capacity place.resolve s m
  tidy : s.disk.tree.Tidy place.resolve
  way : ∀ q : Path, q <+: place → s.disk.tree.node? q.resolve = some .directory

namespace Settled

theorem call (h : Settled capacity place s m) (hop : op.Sized) :
    Settled capacity place (op.onStore s).1 (op.onLru capacity m).1 :=
  have hbecomes := (op.does h.mirrors.stowed.straight).becomes
  ⟨(h.mirrors.step hop).2, h.tidy.becomes hbecomes, fun q hq => hbecomes.directory (h.way q hq)⟩

theorem once (h : Settled capacity place s m) : KeyMap.Once s.recency.toList := by
  rw [h.mirrors.lists.toList_eq]
  exact h.mirrors.lists.once

theorem content?_artifact (h : Settled capacity place s m) (k : CacheKey) :
    s.disk.tree.content? (artifactPath place.resolve k) = (m.entries.find? k).map (·.encode) := by
  rw [Tree.content?, ← h.mirrors.root_eq, h.mirrors.stowed.files]
  cases m.entries.find? k <;> rfl

theorem find?_toList (h : Settled capacity place s m) (k : CacheKey) :
    KeyMap.find? s.recency.toList k = s.disk.tree.fileLength? (artifactPath place.resolve k) := by
  rw [h.mirrors.lists.toList_eq, KeyMap.find?_mapValues, Tree.fileLength?, h.content?_artifact,
    Option.map_map]
  rfl

theorem laid (h : Settled capacity place s m) : Laid place s.disk.tree := by
  have hstowed := h.mirrors.stowed
  rw [h.mirrors.root_eq] at hstowed
  have hinside : ∀ p node, Path.Inside place.resolve p → s.disk.tree.node? p = some node →
      (∃ content, node = .file content) ∧ FilePlace place.resolve p ∨
        node = .directory ∧ Directory place.resolve p := fun p node hp hn => by
    rcases hstowed.inside p node hp.1 hp.2 hn with hdir | ⟨hfile, hbeside | hartifact⟩
    · exact .inr hdir
    · exact .inl ⟨hfile, .inl hbeside⟩
    · exact .inl ⟨hfile, .inr (.inr hartifact)⟩
  have hway : ∀ q : Path, q <+: artifactsPath place → s.disk.tree.node? q.resolve = some .directory :=
    fun q hq => by
    rcases List.prefix_concat_iff.mp hq with rfl | hq
    · have hdir := hstowed.way _ (List.prefix_refl _)
      rwa [← artifactsPath_resolve] at hdir
    · exact h.way q hq
  refine ⟨h.tidy, fun q hq hp => ?_, fun q hq => ?_, hinside⟩
  · rcases hinside _ _ hp (hway q hq) with ⟨⟨content, hfile⟩, -⟩ | ⟨-, hdir⟩
    · cases hfile
    · exact hdir
  · rw [Tree.isFile, hway q hq]

end Settled

namespace Laid.Restores

variable {t : Tree} {order : KeyMap Nat} {values : KeyMap Artifact}

/-- Of the artifacts of a directory those are left on it for which there is room. -/
theorem stowed (h : Restores place capacity t (values.mapValues Lru.bytes) s) (honce : values.Once)
    (hway : ∀ q : Path, q <+: artifactsPath place → s.disk.tree.node? q.resolve = some .directory)
    (hvalues : ∀ k, t.content? (artifactPath place.resolve k) = (values.find? k).map (·.encode)) :
    Stowed place.resolve (values.fit Lru.bytes capacity) s.disk.tree := by
  have hfiles := h.files
  simp only [KeyMap.fit_mapValues, KeyMap.find?_mapValues] at hfiles
  let entries := values.fit Lru.bytes capacity
  refine ⟨Path.straight_resolve place, fun q hq => ?_, fun k => ?_, fun p node hp hne hn => ?_⟩
  · rw [← artifactsPath_resolve] at hq
    obtain ⟨taken, htaken, rfl⟩ := Path.exists_resolve_eq hq
    exact hway taken htaken
  · show _ = (entries.find? k).map fun a => Node.file a.encode
    cases hk : entries.find? k with
    | some a =>
      have hkept : values.find? k = some a :=
        honce.find?_eq_some.mpr (KeyMap.mem_of_mem_fit (KeyMap.mem_of_find? hk))
      have hbefore : t.node? (artifactPath place.resolve k) = some (.file a.encode) := by
        rw [← Tree.content?_eq_some, hvalues, hkept]
        rfl
      refine (hfiles _ _).mpr ⟨hbefore, not_scratch_artifactPath _ _, fun l hl => ?_⟩
      obtain rfl := artifactPath_inj hl
      show (entries.find? k).map Lru.bytes ≠ none
      simp [hk]
    | none =>
      rcases h.laid.artifact_cases k with hnone | ⟨content, hf⟩
      · exact hnone
      · have hroom := ((hfiles _ _).mp hf).2.2 k rfl
        exact absurd (congrArg (Option.map Lru.bytes) hk) hroom
  · rcases h.laid.inside p node ⟨hp, hne⟩ hn with ⟨⟨content, rfl⟩, hbeside | hscratch | hartifact⟩ | hdir
    · exact .inr ⟨⟨content, rfl⟩, .inl hbeside⟩
    · exact absurd hscratch ((hfiles _ _).mp hn).2.1
    · exact .inr ⟨⟨content, rfl⟩, .inr hartifact⟩
    · exact .inl hdir

/-- A store that is opened on the files of some artifacts is like a bounded map of them. -/
theorem settled (h : Restores place capacity t order s)
    (hway : ∀ q : Path, q <+: artifactsPath place → s.disk.tree.node? q.resolve = some .directory)
    {held : CacheKey → Option Artifact}
    (hheld : ∀ k, t.content? (artifactPath place.resolve k) = (held k).map (·.encode))
    (hvalid : ∀ k a, held k = some a → a.key = k ∧ a.size < Bytes.range 8) :
    ∃ m, Settled capacity place s m ∧ (capacity = none → ∀ k, m.entries.find? k = held k) := by
  have hlengths : ∀ k, order.find? k = (held k).map Lru.bytes := fun k => by
    rw [h.finds, Tree.fileLength?, hheld, Option.map_map]
    rfl
  obtain ⟨values, rfl, hvalues⟩ := h.once.exists_mapValues_eq hlengths
  have honce : values.Once := by
    have := h.once
    rwa [KeyMap.Once, KeyMap.keys_mapValues] at this
  have hlists := h.lists
  rw [KeyMap.fit_mapValues] at hlists
  have hstowed := h.stowed honce hway fun k => by rw [hheld, hvalues]
  rw [← h.root_eq] at hstowed
  refine ⟨⟨values.fit Lru.bytes capacity, s.counters⟩, ⟨⟨h.capacity_eq, h.root_eq, h.refusals, hstowed,
    hlists, rfl, fun e he => ?_⟩, h.laid.tidy, fun q hq => hway q (hq.trans (List.prefix_append _ _))⟩, ?_⟩
  · refine hvalid e.1 e.2 ((hvalues e.1).symm.trans ?_)
    exact honce.find?_eq_some.mpr (KeyMap.mem_of_mem_fit he)
  · rintro rfl
    exact hvalues

end Laid.Restores

namespace Settled

/-- A store can be opened again at its place, and without a limit it holds what it held. -/
theorem reopen (h : Settled capacity place s m) (limit : Option Nat) (process : Process) :
    ∃ d t n, Store.open s.disk place limit process = (d, .ok t) ∧ Settled limit place t n ∧
      (limit = none → ∀ k, n.entries.find? k = m.entries.find? k) := by
  obtain ⟨t, order, hopen, hrestores⟩ := h.laid.opens h.mirrors.refusals limit process
  obtain ⟨-, hway⟩ := becomes_open hopen
  obtain ⟨n, hn, hsame⟩ := hrestores.settled hway h.content?_artifact fun k a hk =>
    h.mirrors.valid (k, a) (KeyMap.mem_of_find? hk)
  exact ⟨t.disk, t, n, hopen, hn, hsame⟩

theorem of_reopen (h : Settled capacity place s m) {limit : Option Nat} {process : Process} {d : Disk}
    (ho : Store.open s.disk place limit process = (d, .ok t)) :
    ∃ n, Settled limit place t n ∧ (limit = none → ∀ k, n.entries.find? k = m.entries.find? k) := by
  obtain ⟨d', u, n, hu, hn, hsame⟩ := h.reopen limit process
  rw [ho] at hu
  cases hu
  exact ⟨n, hn, hsame⟩

theorem opened {d : Disk} (hd : d.refusals = []) (h : Vacant place d.tree) (limit : Option Nat)
    (process : Process) :
    ∃ d' s, Store.open d place limit process = (d', .ok s) ∧ Settled limit place s .empty := by
  obtain ⟨d', s, hopen, hmirrors⟩ := h.opened hd limit process
  obtain ⟨hbecomes, hway⟩ := becomes_open hopen
  exact ⟨d', s, hopen, hmirrors, (Laid.of_vacant h).tidy.becomes hbecomes, fun q hq =>
    hway q (hq.trans (List.prefix_append _ _))⟩

end Settled

/-- The artifact of a key is given out. -/
def Holds (s : Store) (k : CacheKey) (a : Artifact) : Prop := (s.get k).2 = .ok (some a)

theorem Settled.holds_iff (h : Settled capacity place s m) :
    s.Holds k a ↔ ∃ stored, m.entries.find? k = some stored ∧ stored.reread = a := by
  have hget : (m.get k).2 = (m.entries.find? k).map (·.reread) := by
    rw [Lru.get]
    cases m.entries.find? k <;> rfl
  rw [Holds, (h.mirrors.get k).1, hget, Result.ok.injEq, Option.map_eq_some_iff]

/-- Stores of a place as calls leave them that no disk refuses, with nobody else at the place. They
may be closed and opened again. -/
inductive Undisturbed (place : Path) : Store → Prop
  | opened {d d' : Disk} {capacity : Option Nat} {process : Process} {s : Store} (hd : d.refusals = [])
      (h : Vacant place d.tree) (ho : Store.open d place capacity process = (d', .ok s)) :
      Undisturbed place s
  | call {s : Store} (h : Undisturbed place s) {op : Op} (hop : op.Sized) :
      Undisturbed place (op.onStore s).1
  | reopened {s t : Store} {d' : Disk} {capacity : Option Nat} {process : Process} (h : Undisturbed place s)
      (ho : Store.open s.disk place capacity process = (d', .ok t)) : Undisturbed place t

namespace Undisturbed

theorem settled (h : Undisturbed place s) : ∃ m, Settled s.capacity place s m := by
  have hopen : ∀ {limit t n}, Settled limit place t n → ∃ n, Settled t.capacity place t n :=
    fun ht => ⟨_, ht.mirrors.capacity_eq ▸ ht⟩
  induction h with
  | opened hd hv ho =>
    obtain ⟨d, t, ht, hn⟩ := Settled.opened hd hv _ _
    rw [ho] at ht
    cases ht
    exact hopen hn
  | call h hop ih =>
    obtain ⟨m, hm⟩ := ih
    exact hopen (hm.call hop)
  | reopened h ho ih =>
    obtain ⟨m, hm⟩ := ih
    obtain ⟨n, hn, -⟩ := hm.of_reopen ho
    exact hopen hn

theorem capacity_call (h : Undisturbed place s) (hop : op.Sized) :
    (op.onStore s).1.capacity = s.capacity := by
  obtain ⟨m, hm⟩ := h.settled
  exact (hm.call hop).mirrors.capacity_eq

theorem capacity_reopen (h : Undisturbed place s) {limit : Option Nat} {process : Process} {d : Disk}
    (ho : Store.open s.disk place limit process = (d, .ok t)) : t.capacity = limit := by
  obtain ⟨m, hm⟩ := h.settled
  obtain ⟨n, hn, -⟩ := hm.of_reopen ho
  exact hn.mirrors.capacity_eq

theorem reopens (h : Undisturbed place s) (limit : Option Nat) (process : Process) :
    ∃ d t, Store.open s.disk place limit process = (d, .ok t) := by
  obtain ⟨m, hm⟩ := h.settled
  obtain ⟨d, t, n, ht, -⟩ := hm.reopen limit process
  exact ⟨d, t, ht⟩

end Undisturbed

/-- Whether a call leaves a key in the store. -/
def Op.Keeps (k : CacheKey) : Op → Prop
  | put .. | get _ | has _ | saveIndex => True
  | remove l => l ≠ k
  | gc live => k ∈ live

theorem Lru.find?_onLru (h : m.entries.find? k = some a) (honce : m.entries.Once) (hkeep : op.Keeps k) :
    (op.onLru none m).1.entries.find? k = some a := by
  cases op with
  | put l a' =>
    simp only [Op.onLru, Lru.put, Prod.map]
    split
    · exact h
    · split
      · next old hold => exact (KeyMap.find?_promote hold k).trans h
      · exact (KeyMap.find?_append_singleton _ _ _ _).trans (by rw [h, Option.some_or])
  | get l =>
    simp only [Op.onLru, Lru.get, Prod.map]
    split
    · next old hold => exact (KeyMap.find?_promote hold k).trans h
    · exact h
  | has l | saveIndex => exact h
  | remove l => exact (KeyMap.find?_erase _ _ _).trans ((if_neg hkeep).trans h)
  | gc live =>
    have hmem : (k, a) ∈ m.entries.filter fun e => live.contains e.1 :=
      List.mem_filter.mpr ⟨KeyMap.mem_of_find? h, List.contains_iff_mem.mpr hkeep⟩
    have hkept : KeyMap.Once (m.entries.filter fun e => live.contains e.1) :=
      honce.sublist (List.filter_sublist.map _)
    exact hkept.find?_eq_some.mpr hmem

/-- Without a limit a store keeps what it holds, but for what it is told to remove. -/
theorem Undisturbed.holds_call (h : Undisturbed place s) (hc : s.capacity = none) (hk : s.Holds k a)
    (hop : op.Sized) (hkeep : op.Keeps k) : (op.onStore s).1.Holds k a := by
  obtain ⟨m, hm⟩ := h.settled
  rw [hc] at hm
  obtain ⟨stored, hstored, hread⟩ := hm.holds_iff.mp hk
  exact (hm.call hop).holds_iff.mpr ⟨stored, Lru.find?_onLru hstored hm.mirrors.once hkeep, hread⟩

theorem Undisturbed.holds_reopen (h : Undisturbed place s) (hk : s.Holds k a) {d : Disk} {process : Process}
    (ho : Store.open s.disk place none process = (d, .ok t)) : t.Holds k a := by
  obtain ⟨m, hm⟩ := h.settled
  obtain ⟨n, hn, hsame⟩ := hm.of_reopen ho
  obtain ⟨stored, hstored, hread⟩ := hm.holds_iff.mp hk
  exact hn.holds_iff.mpr ⟨stored, (hsame rfl k).trans hstored, hread⟩

theorem Undisturbed.holds_put (h : Undisturbed place s) (hc : s.capacity = none)
    (hsize : a.size < Bytes.range 8) : ∃ held, (s.put a.key a).1.Holds a.key held := by
  obtain ⟨m, hm⟩ := h.settled
  rw [hc] at hm
  have hput : Settled none place (s.put a.key a).1 (m.put none a.key a).1 :=
    hm.call (show (Op.put a.key a).Sized from hsize)
  simp only [hput.holds_iff, Lru.put, ne_eq, not_true_eq_false, if_false]
  split
  · next old hold => exact ⟨_, old, (KeyMap.find?_promote hold _).trans hold, rfl⟩
  · next hnone => exact ⟨_, a, (KeyMap.find?_append_singleton _ _ _ _).trans (by simp [hnone]), rfl⟩

/-- A store is collected with some keys live, its index is saved, and it is closed and opened again,
any number of times and in any order. -/
inductive Tended (place : Path) (live : CacheKey → Prop) (s : Store) : Store → Prop
  | refl : Tended place live s s
  | gc {t : Store} (h : Tended place live s t) (keep : List CacheKey) (hkeep : ∀ k, live k → k ∈ keep) :
      Tended place live s (t.gc keep).1
  | saveIndex {t : Store} (h : Tended place live s t) : Tended place live s t.saveIndex.1
  | reopened {t u : Store} {d : Disk} {process : Process} (h : Tended place live s t)
      (ho : Store.open t.disk place none process = (d, .ok u)) : Tended place live s u

/-- All live keys are held as before. -/
theorem Tended.keeps {live : CacheKey → Prop} (h : Tended place live s t) (hs : Undisturbed place s)
    (hc : s.capacity = none) : Undisturbed place t ∧ t.capacity = none ∧
      ∀ k a, live k → s.Holds k a → t.Holds k a := by
  have hcall : ∀ {u : Store} (op : Op), op.Sized → (∀ k, live k → op.Keeps k) →
      (Undisturbed place u ∧ u.capacity = none ∧ ∀ k a, live k → s.Holds k a → u.Holds k a) →
      Undisturbed place (op.onStore u).1 ∧ (op.onStore u).1.capacity = none ∧
        ∀ k a, live k → s.Holds k a → (op.onStore u).1.Holds k a := fun op hop hkeep hu =>
    ⟨hu.1.call hop, (hu.1.capacity_call hop).trans hu.2.1, fun k a hl hk =>
      hu.1.holds_call hu.2.1 (hu.2.2 k a hl hk) hop (hkeep k hl)⟩
  induction h with
  | refl => exact ⟨hs, hc, fun _ _ _ hk => hk⟩
  | gc h keep hkeep ih => exact hcall (.gc keep) trivial hkeep ih
  | saveIndex h ih => exact hcall .saveIndex trivial (fun _ _ => trivial) ih
  | reopened h ho ih =>
    exact ⟨ih.1.reopened ho, ih.1.capacity_reopen ho, fun k a hl hk =>
      ih.1.holds_reopen (ih.2.2 k a hl hk) ho⟩

end BuildCache.Store
