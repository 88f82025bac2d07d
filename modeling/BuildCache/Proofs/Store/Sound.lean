import BuildCache.Proofs.Artifact.Memory
import BuildCache.Proofs.Store.Files

/-! # Sound stores: what is read for a key is right for it, whatever operation came before -/
namespace BuildCache.Store

/-- Every file that decodes for its key holds data that are right for it. -/
def Sound (right : CacheKey → Bytes → Prop) (s : Store) : Prop :=
  ∀ k content a, s.disk.tree.node? (artifactPath s.root k) = some (.file content) →
    Artifact.parse k content = .ok a → right k a.data

variable {right : CacheKey → Bytes → Prop} {s t : Store} {k : CacheKey} {a : Artifact}

theorem Shrinks.sound (h : Shrinks s t) (hs : s.Sound right) : t.Sound right := by
  intro k content a hf
  rw [h.root] at hf
  exact hs k content a (h.files k content hf)

/-- There is memory for all that the file of a key announces. -/
def Readable (s : Store) : Prop :=
  ∀ k content, s.disk.tree.node? (artifactPath s.root k) = some (.file content) →
    Artifact.decode s.process.memory k content = .ofExcept (Artifact.parse k content)

theorem readable_of_memory_eq_none (h : s.process.memory = none) : s.Readable := by
  intro k content _
  rw [h, Artifact.decode_none]

theorem Shrinks.readable (h : Shrinks s t) (hprocess : t.process = s.process) (hs : s.Readable) : t.Readable := by
  intro k content hf
  rw [h.root] at hf
  rw [hprocess]
  exact hs k content (h.files k content hf)

section Process

variable (s) (k) (a)

theorem process_deleteFile : (s.deleteFile k).1.process = s.process := by
  simp only [deleteFile]
  split <;> rfl

theorem process_evict : s.evict.process = s.process := by
  have hfold : ∀ (gone : List CacheKey) (t : Store), (gone.foldl evictFile t).process = t.process := by
    intro gone
    induction gone with
    | nil => exact fun _ => rfl
    | cons k gone ih =>
      intro t
      rw [List.foldl_cons, ih, ← process_deleteFile t k]
      simp only [evictFile]
      split <;> next h => rw [h]
  simp only [evict]
  split
  · rfl
  · exact hfold _ _

theorem process_get : (s.get k).1.process = s.process := by
  have hread : ((s.pin k).readFile k).1.process = s.process := by
    simp only [readFile]
    split <;> rfl
  simp only [Store.get, settle]
  split
  · exact hread
  · exact hread
  · exact (process_deleteFile _ k).trans hread
  · exact hread
  · exact hread

theorem process_put : (s.put k a).1.process = s.process := by
  simp only [Store.put, makeShard, writeTemp, publish]
  split
  · rfl
  split
  · rfl
  split
  · next he =>
    split at he <;> cases he
    rfl
  next he =>
  split at he <;> cases he
  split
  · next hw =>
    split at hw <;> cases hw
    rfl
  next hw =>
  split at hw <;> cases hw
  split
  · rfl
  split
  · rfl
  · exact process_evict _

end Process

/-- What a reading says of the file of a key. -/
def Reading.Tells (s : Store) (k : CacheKey) : Reading → Prop
  | .found a size => ∃ raw, s.disk.tree.node? (artifactPath s.root k) = some (.file raw) ∧
      Artifact.parse k raw = .ok a ∧ raw.length = size
  | .corrupt kind => ∃ raw, s.disk.tree.node? (artifactPath s.root k) = some (.file raw) ∧
      Artifact.parse k raw = .error kind
  | .crashed c => ∃ raw, s.disk.tree.node? (artifactPath s.root k) = some (.file raw) ∧
      Artifact.decode s.process.memory k raw = .crashed c
  | .absent | .failed _ => True

theorem tells_readFile (s : Store) (k : CacheKey) : (s.readFile k).2.Tells s k := by
  simp only [readFile]
  split
  · next d raw hd =>
    have hread := Tree.read_eq_ok.mp (Disk.look_ok (congrArg Prod.snd hd))
    split
    · next a ha => exact ⟨raw, hread, Artifact.decode_eq_ok.mp ha, rfl⟩
    · next kind hkind => exact ⟨raw, hread, Artifact.parse_of_decode_error hkind⟩
    · next c hc => exact ⟨raw, hread, hc⟩
  · trivial
  · trivial

theorem readFile_found {size : Nat} (h : (s.readFile k).2 = .found a size) :
    ∃ raw, s.disk.tree.node? (artifactPath s.root k) = some (.file raw) ∧
      Artifact.parse k raw = .ok a := by
  obtain ⟨raw, hread, ha, -⟩ := h ▸ tells_readFile s k
  exact ⟨raw, hread, ha⟩

theorem settle_found {reading : Reading} (h : (s.settle k reading).2 = .ok (some a)) :
    ∃ size, reading = .found a size := by
  cases reading with
  | found a' size =>
    cases h
    exact ⟨size, rfl⟩
  | absent | corrupt kind | failed e | crashed c => cases h

theorem get_some (h : (s.get k).2 = .ok (some a)) :
    ∃ raw, s.disk.tree.node? (artifactPath s.root k) = some (.file raw) ∧
      Artifact.parse k raw = .ok a := by
  obtain ⟨size, hfound⟩ := settle_found h
  exact readFile_found (s := s.pin k) hfound

theorem get_broken {c : Crash} (h : (s.get k).2 = .crashed c) :
    ∃ raw, s.disk.tree.node? (artifactPath s.root k) = some (.file raw) ∧
      Artifact.decode s.process.memory k raw = .crashed c := by
  have htells := tells_readFile (s.pin k) k
  simp only [Store.get] at h
  generalize (s.pin k).readFile k = r at h htells
  obtain ⟨t, reading⟩ := r
  cases reading with
  | crashed c' =>
    cases h
    exact htells
  | found | absent | corrupt | failed => cases h

theorem Readable.get_ne_crashed (hs : s.Readable) (k : CacheKey) (c : Crash) : (s.get k).2 ≠ .crashed c := by
  intro h
  obtain ⟨raw, hf, hd⟩ := get_broken h
  rw [hs k raw hf] at hd
  cases hp : Artifact.parse k raw <;> simp [hp] at hd

theorem Sound.get (hs : s.Sound right) (k : CacheKey) : (s.get k).1.Sound right :=
    (Shrinks.get s k).sound hs

theorem writeTemp_ok {temp : Path} (h : s.writeTemp a = (t, .ok temp)) :
    temp = s.tempPath a.key ∧ t.disk.tree.node? temp = some (.file a.encode) := by
  simp only [writeTemp] at h
  split at h
  · next d hd =>
    cases h
    refine ⟨rfl, ?_⟩
    rw [Tree.write_eq_ok (Disk.change_eq_ok hd), Tree.node?_put _ (tempPath_ne_nil _ _), if_pos rfl]
  · cases h

theorem root_publish (s : Store) (a : Artifact) (temp : Path) : (s.publish a temp).1.root = s.root := by
  simp only [publish]
  split
  · rfl
  · split
    · rfl
    · exact (Shrinks.evict _).root

theorem file_publish {temp : Path} (hnil : temp ≠ [])
    (htemp : s.disk.tree.node? temp = some (.file a.encode)) {l : CacheKey} {content : Bytes}
    (h : (s.publish a temp).1.disk.tree.node? (artifactPath s.root l) = some (.file content)) :
    s.disk.tree.node? (artifactPath s.root l) = some (.file content) ∨
      l = a.key ∧ content = a.encode := by
  simp only [publish] at h
  split at h
  · exact .inl ((Shrinks.discard s hnil).files l content h)
  · split at h
    · next d e hd =>
      have hsame : Shrinks s { s with disk := d } := .of_tree rfl (Disk.change_eq_error hd)
      exact .inl ((hsame.trans (Shrinks.discard _ hnil)).files l content h)
    · next d hd =>
      have hfile : d.tree.node? (artifactPath s.root l) = some (.file content) :=
        (Shrinks.evict _).files l content h
      obtain ⟨moved, hmoved, htree⟩ := Tree.rename_eq_ok (Disk.change_eq_ok hd)
      obtain rfl : a.encode = moved := by simpa [htemp] using hmoved
      rw [htree, Tree.node?_put _ (p := s.pathOf a.key) (artifactPath_ne_nil _ _),
        Tree.node?_erase _ hnil] at hfile
      split at hfile
      · next hpath =>
        cases hfile
        exact .inr ⟨(artifactPath_inj hpath).symm, rfl⟩
      · split at hfile
        · cases hfile
        · exact .inl hfile

/-- A put makes no artifact file, or comes down to publishing a temporary file of the artifact. -/
theorem put_cases (s : Store) (k : CacheKey) (a : Artifact) : Shrinks s (s.put k a).1 ∨
    ∃ t temp, Shrinks s t ∧ a.key = k ∧ temp ≠ [] ∧
      t.disk.tree.node? temp = some (.file a.encode) ∧ (s.put k a).1 = (t.publish a temp).1 := by
  simp only [Store.put]
  split
  · exact .inl (.refl s)
  · next hkey =>
    split
    · exact .inl (.touch s k)
    · have hshard := Shrinks.makeShard s k
      split
      · next s' e he =>
        rw [he] at hshard
        exact .inl hshard
      · next s' he =>
        rw [he] at hshard
        have htemp := hshard.trans (.writeTemp s' a)
        split
        · next s'' e he' =>
          rw [he'] at htemp
          exact .inl htemp
        · next s'' temp he' =>
          rw [he'] at htemp
          obtain ⟨rfl, hfile⟩ := writeTemp_ok he'
          exact .inr ⟨s'', _, htemp, not_not.mp hkey, tempPath_ne_nil _ _, hfile, rfl⟩

theorem root_put (s : Store) (k : CacheKey) (a : Artifact) : (s.put k a).1.root = s.root := by
  rcases s.put_cases k a with h | ⟨t, temp, ht, -, -, -, he⟩
  · exact h.root
  · rw [he, root_publish, ht.root]

/-- What a put leaves at the place of an artifact was there, or is the artifact that is put. -/
theorem file_put {l : CacheKey} {content : Bytes}
    (h : (s.put k a).1.disk.tree.node? (artifactPath s.root l) = some (.file content)) :
    s.disk.tree.node? (artifactPath s.root l) = some (.file content) ∨
      l = k ∧ a.key = k ∧ content = a.encode := by
  rcases s.put_cases k a with hsame | ⟨t, temp, ht, hkey, hnil, hfile, he⟩
  · exact .inl (hsame.files l content h)
  · rw [he, ← ht.root] at h
    rcases file_publish hnil hfile h with hf | ⟨rfl, rfl⟩
    · rw [ht.root] at hf
      exact .inl (ht.files l content hf)
    · exact .inr ⟨hkey, hkey, rfl⟩

theorem Sound.put (hs : s.Sound right) (h : a.key = k → right k a.data) : (s.put k a).1.Sound right := by
  intro l content a' hf hdecode
  rw [root_put] at hf
  rcases file_put hf with hf | ⟨rfl, hkey, rfl⟩
  · exact hs l content a' hf hdecode
  · rw [(Artifact.data_of_parse_encode hdecode).2]
    exact h hkey

theorem Readable.put (hs : s.Readable) (h : a.size < Bytes.range 8) : (s.put k a).1.Readable := by
  intro l content hf
  rw [root_put] at hf
  rw [process_put]
  rcases file_put hf with hf | ⟨rfl, -, rfl⟩
  · exact hs l content hf
  · exact Artifact.decode_eq_parse (fun _ => Artifact.le_of_mem_encode h) ..

end BuildCache.Store
