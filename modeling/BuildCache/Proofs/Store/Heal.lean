import BuildCache.Proofs.Store.Reopen
import BuildCache.Proofs.Store.Tracking

/-! # Damaged entries

A lookup deletes them and nothing else, and they can be stored again. Only those on which the reading breaks down
stay as they are, and pinned. -/
namespace BuildCache.Store

open KeyMap (fit)

variable {place root p q : Path} {t t' : Tree} {s : Store} {k : CacheKey} {a : Artifact} {raw : Bytes}
  {kind : Corruption} {c : Crash}

theorem root_remove (s : Store) (k : CacheKey) : (s.remove k).1.root = s.root := by
  rw [remove, deleteFile_fst]

theorem root_sweep (s : Store) (removed : Nat) (keys : List CacheKey) :
    (s.sweep removed keys).1.root = s.root :=
  sweep_induction (P := fun t => t.root = s.root) (fun t k _ h => (root_remove t k).trans h) rfl removed

theorem Op.root_onStore (s : Store) (op : Op) : (op.onStore s).1.root = s.root := by
  cases op with
  | put k a => exact root_put s k a
  | get k => exact (Shrinks.get s k).root
  | has k => rfl
  | remove k => exact root_remove s k
  | gc live => exact root_sweep s 0 _
  | saveIndex => exact (Shrinks.saveIndex s).root

theorem not_artifactPath_prefix : ¬artifactPath root k <+: shardPath root k := fun hpre =>
  absurd hpre.length_le (by simp)

/-- No directory has a name that a store gives to its temporary files. -/
def Roomy (root : Path) (t : Tree) : Prop := ∀ p, Scratch root p → t.node? p ≠ some .directory

theorem Roomy.does (h : Roomy root t) (hc : Does root t t') : Roomy root t' := by
  induction hc with
  | refl => exact h
  | tail _ hc ih =>
    intro p hp hdir
    have hplace : FilePlace root p := .inr (.inl hp)
    rcases hc.node?_cases hdir with hold | ⟨⟨_, he⟩, -⟩ | ⟨-, hmade⟩
    · exact ih p hp hold
    · cases he
    · exact hplace.not_directory (hmade hplace.inside)

theorem Laid.roomy (h : Laid place t) : Roomy place.resolve t := by
  intro p hp hdir
  have hplace : FilePlace place.resolve p := .inr (.inl hp)
  rcases h.inside _ _ hplace.inside hdir with ⟨⟨_, hfile⟩, -⟩ | ⟨-, hother⟩
  · cases hfile
  · exact hplace.not_directory hother

/-- What a store at a place can come to until a lookup breaks down: it is opened, calls are made on it, some
of which the disk may fail, and between the calls others change the tree as they like, but for directories of
such names. -/
inductive Reached (place : Path) : Store → Prop
  | opened {d d' : Disk} {capacity : Option Nat} {process : Process} {s : Store} (h : d.tree.Tidy place.resolve)
      (ho : Store.open d place capacity process = (d', .ok s)) (hroom : Roomy place.resolve s.disk.tree) :
      Reached place s
  | call {s : Store} (h : Reached place s) (op : Op) (hback : ∀ c, (op.onStore s).2 ≠ .found (.crashed c)) :
      Reached place (op.onStore s).1
  | changed {s : Store} (h : Reached place s) {t : Tree} (ht : Roomy place.resolve t) :
      Reached place { s with disk.tree := t }

/-- What calls and others keep of a store. -/
structure Usable (place : Path) (s : Store) : Prop where
  root_eq : s.root = place.resolve
  roomy : Roomy place.resolve s.disk.tree
  listed : s.recency.Listed

theorem Reached.usable (h : Reached place s) : Usable place s := by
  induction h with
  | opened h ho hroom =>
    obtain ⟨made, order, -, hs⟩ := open_spec h ho
    exact ⟨hs.root_eq, hroom, _, hs.lists⟩
  | @call s h op hback ih =>
    have hdoes := op.does (s := s) (ih.root_eq ▸ Path.straight_resolve place)
    rw [ih.root_eq] at hdoes
    exact ⟨(op.root_onStore s).trans ih.root_eq, ih.roomy.does hdoes, Op.listed ih.listed hback⟩
  | changed h ht ih => exact ⟨ih.root_eq, ht, ih.listed⟩

theorem straight_artifactPath (hroot : root.Straight) (k : CacheKey) : (artifactPath root k).Straight := by
  refine (straight_shardPath hroot k).append_singleton (Path.step_of_ne (fun he => ?_) _)
  have hlen : (k.toHex ++ ".art").length = "..".length := congrArg String.length he
  rw [String.length_append, show ".art".length = 4 from rfl, show "..".length = 2 from rfl] at hlen
  omega

/-- A file that others wrote at the place of an artifact is there, in the directory of its shard. -/
theorem node?_of_writeDeep (hroot : root.Straight) (h : t.writeDeep (artifactPath root k) raw = .ok t') :
    t'.node? (artifactPath root k) = some (.file raw) ∧
      (∀ q, q <+: shardPath root k → t'.node? q = some .directory) ∧
      ∀ q, t'.node? q = some .directory → t.node? q = some .directory ∨ q <+: shardPath root k := by
  have hnil := artifactPath_ne_nil root k
  have hstraight := straight_shardPath hroot k
  have hparent : (artifactPath root k).dropLast = shardPath root k := List.dropLast_concat
  have hresolve : (artifactPath root k).resolve = artifactPath root k := (straight_artifactPath hroot k).resolve_eq
  simp only [Tree.writeDeep, hparent, hresolve, bind, Except.bind] at h
  split at h
  · cases h
  · next made hmade =>
    rw [Tree.write_eq_ok h]
    simp only [Tree.node?_put made hnil]
    refine ⟨if_pos trivial, fun q hq => ?_, fun q hdir => ?_⟩
    · have hdir := Tree.node?_of_createDirectories hmade hq
      rw [if_neg fun he => not_artifactPath_prefix (he ▸ hq), ← hdir, hstraight q hq]
    · split at hdir
      · cases hdir
      · rcases Tree.node?_createDirectories hmade q with he | ⟨-, -, taken, htaken, rfl⟩
        · exact .inl (he ▸ hdir)
        · exact .inr (by rwa [hstraight taken htaken])

theorem readFile_eq_of_file (hd : s.disk.refusals = [])
    (hf : s.disk.tree.node? (s.pathOf k) = some (.file raw)) :
    s.readFile k = (s, match Artifact.decode s.process.memory k raw with
      | .ok a => .found a raw.length
      | .error kind => .corrupt kind
      | .crashed c => .crashed c) := by
  have hlook : s.disk.look (·.read (s.pathOf k)) = (s.disk, .ok raw) := by
    rw [Disk.look_eq hd, Tree.read_eq_ok.mpr hf]
  refine Prod.ext ((readFile_fst s k).trans ?_) ?_
  · exact congrArg (fun looked => ({ s with disk := looked.1 } : Store)) hlook
  · cases hdecode : Artifact.decode s.process.memory k raw <;> simp only [readFile, hlook, hdecode]

theorem holds_of_parse (hd : s.disk.refusals = []) (hf : s.disk.tree.node? (s.pathOf k) = some (.file raw))
    (ha : Artifact.parse k raw = .ok a) : s.Holds k a := by
  have hread := readFile_eq_of_file (s := s.pin k) hd hf
  rw [Artifact.decode_eq_ok.mpr ha] at hread
  rw [Holds, get, hread]
  rfl

theorem get_damaged (hs : s.recency.Listed) (hd : s.disk.refusals = [])
    (hf : s.disk.tree.node? (s.pathOf k) = some (.file raw))
    (hkind : Artifact.decode s.process.memory k raw = .error kind) :
    s.get k = ({ s with
      disk := ⟨s.disk.tree.erase (s.pathOf k), []⟩
      recency := s.recency.erase k
      counters.corruptions := s.counters.corruptions + 1 }, .error (.corruption k kind)) := by
  have hread := readFile_eq_of_file (s := s.pin k) hd hf
  rw [show Artifact.decode (s.pin k).process.memory k raw = _ from hkind] at hread
  rw [get, hread]
  simp only [settle, deleteFile_fst, pin, hs.unpin_pin]
  rw [show s.disk.change _ = _ from Disk.change_ok hd (Tree.removeFile_ok hf)]

theorem get_crashed (hd : s.disk.refusals = []) (hf : s.disk.tree.node? (s.pathOf k) = some (.file raw))
    (hc : Artifact.decode s.process.memory k raw = .crashed c) : s.get k = (s.pin k, .crashed c) := by
  have hread := readFile_eq_of_file (s := s.pin k) hd hf
  rw [show Artifact.decode (s.pin k).process.memory k raw = _ from hc] at hread
  rw [get, hread]
  rfl

/-- What is not in the directory of its shard can be put, and is there then if there is room for it. -/
theorem Usable.holds_put (h : Usable place s) (hd : s.disk.refusals = [])
    (hway : ∀ q, q <+: shardPath s.root a.key → s.disk.tree.node? q = some .directory)
    (hnone : s.disk.tree.node? (s.pathOf a.key) = none) (hsize : a.size < Bytes.range 8)
    (hroom : ∀ limit, s.capacity = some limit → a.encode.length ≤ limit) :
    (s.put a.key a).2 = .ok () ∧ (s.put a.key a).1.Holds a.key a.reread := by
  have hroot : s.root.Straight := h.root_eq ▸ Path.straight_resolve place
  obtain ⟨made, hmake, hnode⟩ := Tree.createDirectories_ok (straight_shardPath hroot a.key) fun q hq => by
    rw [Tree.isFile, hway q hq]
  have hsame : ∀ q, made.node? q = s.disk.tree.node? q := fun q => by
    rw [hnode]
    split
    · next hq => rw [hway q hq]
    · rfl
  have htemp := h.roomy _ (h.root_eq ▸ scratch_tempPath s a.key)
  rw [← hsame] at htemp hnone
  obtain ⟨tree, hput, htree⟩ := put_eq hd hmake (by rw [hsame, hway _ (List.prefix_refl _)]) htemp hnone
  obtain ⟨m, hm⟩ := h.listed
  have hinsert := hm.insert a.key a.encode.length
  let stored : Store := { s with
    disk := ⟨tree, []⟩
    nextTemp := s.nextTemp + 1
    recency := s.recency.insert a.key a.encode.length
    counters.puts := s.counters.puts + 1 }
  obtain ⟨d, counters, recency, hevict, -, hswept⟩ := exists_evict_eq (s := stored) hinsert
  have hlast : (a.key, a.encode.length) ∈ fit id s.capacity (m.erase a.key ++ [(a.key, a.encode.length)]) := by
    apply KeyMap.mem_fit_last
    exact hroom
  have hkept := (hinsert.once.fit id s.capacity).find?_eq_some.mpr hlast
  have hf : d.tree.node? (s.pathOf a.key) = some (.file a.encode) := by
    rw [hswept.kept, htree, if_pos rfl]
    rintro ⟨l, hdropped, hl⟩
    obtain rfl := artifactPath_inj hl
    rw [hdropped.2] at hkept
    cases hkept
  rw [hput, hevict]
  exact ⟨rfl, holds_of_parse (hswept.permits rfl) hf ((Artifact.parse_encode hsize a.key).trans (if_pos rfl))⟩

/-- The entry of a key is gone, file and all, and counted as corrupt; the rest is as it was, and no pin
is left. -/
structure Discarded (k : CacheKey) (s t : Store) : Prop where
  absent : t.has k = false
  untracked : t.recency.contains k = false
  tallies : Tallies t (KeyMap.erase s.recency.toList k)
  nodes : ∀ p, t.disk.tree.node? p = if p = s.pathOf k then none else s.disk.tree.node? p
  pins : t.recency.pins = s.recency.pins
  unpinned : ∀ l, t.recency.isPinned l = false
  counters : t.counters = { s.counters with corruptions := s.counters.corruptions + 1 }
  rest : t.root = s.root ∧ t.capacity = s.capacity ∧ t.disk.refusals = s.disk.refusals

theorem discarded (hs : s.recency.Listed) (hd : s.disk.refusals = [])
    (hf : s.disk.tree.node? (s.pathOf k) = some (.file raw))
    (hkind : Artifact.decode s.process.memory k raw = .error kind) :
    (s.get k).2 = .error (.corruption k kind) ∧ Discarded k s (s.get k).1 := by
  have hnil : s.pathOf k ≠ [] := artifactPath_ne_nil _ _
  have hnode : ∀ p, (s.disk.tree.erase (s.pathOf k)).node? p
      = if p = s.pathOf k then none else s.disk.tree.node? p := fun p => by
    rw [Tree.node?_erase _ hnil]
    exact if_congr eq_comm rfl rfl
  rw [get_damaged hs hd hf hkind]
  obtain ⟨m, hm⟩ := hs
  have herased := hm.erase k
  refine ⟨rfl, ?_, ?_, ?_, hnode, ?_, herased.isPinned_eq, rfl, rfl, rfl, hd.symm⟩
  · apply Tree.isFile_eq_false.mpr
    intro content
    show (s.disk.tree.erase (s.pathOf k)).node? (s.pathOf k) ≠ some (.file content)
    rw [hnode, if_pos rfl]
    exact nofun
  · rw [herased.contains_eq, KeyMap.find?_erase, if_pos rfl]
    rfl
  · rw [hm.toList_eq]
    exact .of_lists herased
  · show (s.recency.erase k).pins = s.recency.pins
    simp only [Recency.erase]
    split <;> rfl

theorem Usable.overwritten (h : Usable place s) (hwrite : s.disk.tree.writeDeep (s.pathOf k) raw = .ok t) :
    Usable place { s with disk.tree := t } := by
  obtain ⟨-, -, hdirs⟩ := node?_of_writeDeep (h.root_eq ▸ Path.straight_resolve place) hwrite
  refine ⟨h.root_eq, fun p hp hdir => ?_, h.listed⟩
  rcases hdirs p hdir with hold | hpre
  · exact h.roomy p hp hold
  · have hlen := hpre.length_le
    obtain ⟨l, name, -, rfl⟩ := hp
    simp [h.root_eq] at hlen

theorem Discarded.usable {healed : Store} (h : Discarded k s healed) (hs : Usable place s)
    (hlisted : healed.recency.Listed) : Usable place healed := by
  refine ⟨h.rest.1.trans hs.root_eq, fun p hp hdir => ?_, hlisted⟩
  rw [h.nodes] at hdir
  split at hdir
  · cases hdir
  · exact hs.roomy p hp hdir

/-- Where an entry was discarded, any artifact of its key can be put for which there is room. -/
theorem Discarded.refilled {healed : Store} (h : Discarded a.key s healed) (hhealed : Usable place healed)
    (hd : s.disk.refusals = [])
    (hway : ∀ q, q <+: shardPath s.root a.key → s.disk.tree.node? q = some .directory)
    (hsize : a.size < Bytes.range 8) (hroom : ∀ limit, s.capacity = some limit → a.encode.length ≤ limit) :
    ∃ filled, healed.put a.key a = (filled, .ok ()) ∧ filled.Holds a.key a.reread := by
  obtain ⟨hroot, hcapacity, hrefusals⟩ := h.rest
  have hshard : ∀ q, q <+: shardPath healed.root a.key → healed.disk.tree.node? q = some .directory := by
    intro q hq
    rw [hroot] at hq
    rw [h.nodes, if_neg, hway q hq]
    rintro rfl
    exact not_artifactPath_prefix hq
  have hgone : healed.disk.tree.node? (healed.pathOf a.key) = none := by
    rw [h.nodes, pathOf, pathOf, hroot, if_pos rfl]
  obtain ⟨hok, hholds⟩ := hhealed.holds_put (hrefusals.trans hd) hshard hgone hsize
    fun limit hlimit => hroom limit (hcapacity ▸ hlimit)
  exact ⟨_, Prod.ext rfl hok, hholds⟩

/-- What others write at the place of an artifact and does not decode for the key is reported and discarded.
Then any artifact of the key can be put for which there is room, and it is given out. -/
theorem Reached.healed {kind : Corruption} (h : Reached place s) (hd : s.disk.refusals = [])
    (hwrite : s.disk.tree.writeDeep (s.pathOf k) raw = .ok t)
    (hkind : Artifact.decode s.process.memory k raw = .error kind) :
    ∃ healed, Store.get { s with disk.tree := t } k = (healed, .error (.corruption k kind)) ∧
      Discarded k { s with disk.tree := t } healed ∧
      ∀ a, a.key = k → a.size < Bytes.range 8 →
        (∀ limit, s.capacity = some limit → a.encode.length ≤ limit) →
        ∃ filled, healed.put k a = (filled, .ok ()) ∧ filled.Holds k a.reread := by
  have hs := h.usable
  obtain ⟨hf, hway, -⟩ := node?_of_writeDeep (hs.root_eq ▸ Path.straight_resolve place) hwrite
  let damaged : Store := { s with disk.tree := t }
  have husable : Usable place damaged := hs.overwritten hwrite
  obtain ⟨hanswer, hdiscarded⟩ := discarded (s := damaged) husable.listed hd hf hkind
  refine ⟨(damaged.get k).1, Prod.ext rfl hanswer, hdiscarded, ?_⟩
  rintro a rfl hsize hroom
  have hlisted : (damaged.get a.key).1.recency.Listed := by
    refine listed_get husable.listed fun c hc => ?_
    rw [hanswer] at hc
    cases hc
  exact hdiscarded.refilled (hdiscarded.usable husable hlisted) hd hway hsize hroom

/-- Whatever others write at the place of an artifact, a lookup gives out what it decodes to for the key,
or reports it and discards it. Then any artifact of the key can be put for which there is room, and it
is given out. Where the decoding breaks down, so does the lookup, with the file as it was and the key pinned;
then nothing is stored by a put. -/
theorem heals (h : Reached place s) (hd : s.disk.refusals = [])
    (hwrite : s.disk.tree.writeDeep (s.pathOf k) raw = .ok t) :
    (∀ a, Store.Holds { s with disk.tree := t } k a ↔ Artifact.decode s.process.memory k raw = .ok a) ∧
    (∀ kind, Artifact.decode s.process.memory k raw = .error kind → ∃ healed,
      Store.get { s with disk.tree := t } k = (healed, .error (.corruption k kind)) ∧
      Discarded k { s with disk.tree := t } healed ∧
      ∀ a, a.key = k → a.size < Bytes.range 8 →
        (∀ limit, s.capacity = some limit → a.encode.length ≤ limit) →
        ∃ filled, healed.put k a = (filled, .ok ()) ∧ filled.Holds k a.reread) ∧
    ∀ c, Artifact.decode s.process.memory k raw = .crashed c → ∃ left,
      Store.get { s with disk.tree := t } k = (left, .crashed c) ∧ left = Store.pin { s with disk.tree := t } k ∧
      ∀ a, a.key = k → left.put k a = (left.touch k, .ok ()) := by
  obtain ⟨hf, -⟩ := node?_of_writeDeep (h.usable.root_eq ▸ Path.straight_resolve place) hwrite
  let damaged : Store := { s with disk.tree := t }
  refine ⟨fun a => ⟨fun hheld => ?_, fun ha => ?_⟩, fun kind hkind => h.healed hd hwrite hkind, fun c hc => ?_⟩
  · obtain ⟨raw', hf', ha⟩ := get_some hheld
    cases hf.symm.trans hf'
    exact Artifact.decode_eq_ok.mpr ha
  · exact holds_of_parse (s := damaged) hd hf (Artifact.decode_eq_ok.mp ha)
  · refine ⟨damaged.pin k, get_crashed (s := damaged) hd hf hc, rfl, fun a ha => ?_⟩
    have hhas : (damaged.pin k).has k = true := by
      rw [has, Tree.isFile, show (damaged.pin k).disk.tree.node? ((damaged.pin k).pathOf k) = _ from hf]
    rw [put, if_neg (not_not.mpr ha), if_pos hhas]

private theorem exists_of_isOk {ε α : Type} {r : Except ε α} (h : r.isOk = true) : ∃ x, r = .ok x := by
  cases r with
  | ok x => exact ⟨x, rfl⟩
  | error e => cases h

private theorem decode_cut (memory : Option Nat) (k : CacheKey) :
    Artifact.decode memory k [1] = .error .truncated := by
  cases memory <;> rfl

/-- An entry that was stored is cut short, reported and stored again. -/
theorem heals_cut : ∃ s t, Reached ["cache"] s ∧ s.disk.refusals = [] ∧
    s.recency.contains (sample 1).key = true ∧ s.disk.tree.writeDeep (s.pathOf (sample 1).key) [1] = .ok t ∧
    ∃ healed, Store.get { s with disk.tree := t } (sample 1).key
        = (healed, .error (.corruption (sample 1).key .truncated)) ∧
      ∃ filled, healed.put (sample 1).key (sample 1) = (filled, .ok ()) ∧
        filled.Holds (sample 1).key (sample 1) := by
  obtain ⟨d, s, ho, hs⟩ := Settled.opened rfl vacant_emptyDirectory (some 250) ⟨1, none⟩
  have hany : (Store.open emptyDirectory ["cache"] (some 250) ⟨1, none⟩).2.toOption.any (fun s =>
      let stored := (s.put (sample 1).key (sample 1)).1
      stored.disk.refusals = [] ∧ stored.capacity = some 250 ∧ stored.recency.contains (sample 1).key = true ∧
        (stored.disk.tree.writeDeep (stored.pathOf (sample 1).key) [1]).isOk = true) = true := by
    decide +kernel
  obtain ⟨opened, hopened, hp⟩ := exists_of_any hany
  obtain ⟨-, rfl⟩ : d = opened.disk ∧ s = opened := by
    rw [ho] at hopened
    cases hopened
    exact ⟨rfl, rfl⟩
  obtain ⟨hd, hcapacity, htracked, hwritten⟩ := of_decide_eq_true hp
  obtain ⟨t, hwrite⟩ := exists_of_isOk hwritten
  have hreached : Reached ["cache"] (s.put (sample 1).key (sample 1)).1 :=
    (Reached.opened (Laid.of_vacant vacant_emptyDirectory).tidy ho hs.laid.roomy).call
      (.put (sample 1).key (sample 1)) nofun
  obtain ⟨healed, hget, -, hput⟩ := (heals hreached hd hwrite).2.1 .truncated (decode_cut ..)
  refine ⟨_, t, hreached, hd, htracked, hwrite, healed, hget, ?_⟩
  apply hput (sample 1) rfl (by decide)
  rintro limit hlimit
  obtain rfl : 250 = limit := Option.some.inj (hcapacity.symm.trans hlimit)
  have hlength : (sample 1).encode.length = 114 := by cbv
  omega

private theorem moves_leap : ∃ s t a, Reached ["cache"] s ∧ s.disk.refusals = [] ∧ s.capacity = none ∧
    a.size < Bytes.range 8 ∧ s.disk.tree.writeDeep (s.pathOf a.key) [1] = .ok t ∧
    ∃ healed, Store.get { s with disk.tree := t } a.key = (healed, .error (.corruption a.key .truncated)) ∧
      ∃ filled, healed.put a.key a = (filled, .ok ()) ∧ filled.Holds a.key a.reread ∧ a.reread ≠ a := by
  obtain ⟨d, s, ho, hs⟩ := Settled.opened rfl vacant_emptyDirectory none ⟨1, none⟩
  let a := Artifact.offbeat
  have hany : (Store.open emptyDirectory ["cache"] none ⟨1, none⟩).2.toOption.any (fun s =>
      s.disk.refusals = [] ∧ s.capacity = none ∧
        (s.disk.tree.writeDeep (s.pathOf a.key) [1]).isOk = true) = true := by
    decide +kernel
  obtain ⟨opened, hopened, hp⟩ := exists_of_any hany
  obtain ⟨-, rfl⟩ : d = opened.disk ∧ s = opened := by
    rw [ho] at hopened
    cases hopened
    exact ⟨rfl, rfl⟩
  obtain ⟨hd, hcapacity, hwritten⟩ := of_decide_eq_true hp
  obtain ⟨t, hwrite⟩ := exists_of_isOk hwritten
  have hreached : Reached ["cache"] s := .opened (Laid.of_vacant vacant_emptyDirectory).tidy ho hs.laid.roomy
  obtain ⟨healed, hget, -, hput⟩ := hreached.healed hd hwrite (decode_cut ..)
  obtain ⟨filled, hfilled, hholds⟩ := hput a rfl (by decide) (by simp [hcapacity])
  exact ⟨s, t, a, hreached, hd, hcapacity, by decide, hwrite, healed, hget, filled, hfilled, hholds, by decide⟩

/-- An artifact file whose header ends where a text of the greatest length should begin. -/
def boundless : Bytes := Bytes.ofNat 4 14 ++ Artifact.magic ++ Varint.encode 1 ++ Varint.encode 0xffffffffffffffff

private theorem stays_damaged : ∃ s t, Reached ["cache"] s ∧ s.disk.refusals = [] ∧
    s.disk.tree.writeDeep (s.pathOf (sample 1).key) boundless = .ok t ∧
    ∃ left, Store.get { s with disk.tree := t } (sample 1).key = (left, .crashed .panicked) ∧
      left.has (sample 1).key = true ∧ left.recency.isPinned (sample 1).key = true ∧ left.counters.corruptions = 0 ∧
      ∃ kept, left.put (sample 1).key (sample 1) = (kept, .ok ()) ∧
        (kept.get (sample 1).key).2 = .crashed .panicked := by
  let process : Process := ⟨1, some 0x10000000000⟩
  obtain ⟨d, s, ho, hs⟩ := Settled.opened rfl vacant_emptyDirectory none process
  have hany : (Store.open emptyDirectory ["cache"] none process).2.toOption.any (fun s =>
      s.disk.refusals = [] ∧ (s.disk.tree.writeDeep (s.pathOf (sample 1).key) boundless).toOption.any fun t =>
        let left := Store.get { s with disk.tree := t } (sample 1).key
        left.2 = .crashed .panicked ∧ left.1.has (sample 1).key = true ∧
          left.1.recency.isPinned (sample 1).key = true ∧ left.1.counters.corruptions = 0 ∧
          let kept := left.1.put (sample 1).key (sample 1)
          kept.2 = .ok () ∧ (kept.1.get (sample 1).key).2 = .crashed .panicked) = true := by
    decide +kernel
  obtain ⟨opened, hopened, hp⟩ := exists_of_any hany
  obtain ⟨-, rfl⟩ : d = opened.disk ∧ s = opened := by
    rw [ho] at hopened
    cases hopened
    exact ⟨rfl, rfl⟩
  obtain ⟨hd, hp⟩ := of_decide_eq_true hp
  obtain ⟨t, ht, hp⟩ := (Option.any_eq_true ..).mp hp
  obtain ⟨hget, hhas, hpinned, hcounted, hput, hagain⟩ := of_decide_eq_true hp
  have hreached : Reached ["cache"] s := .opened (Laid.of_vacant vacant_emptyDirectory).tidy ho hs.laid.roomy
  refine ⟨s, t, hreached, hd, ?_, _, Prod.ext rfl hget, hhas, hpinned, hcounted, _, Prod.ext rfl hput, hagain⟩
  cases hw : s.disk.tree.writeDeep (s.pathOf (sample 1).key) boundless <;> rw [hw] at ht <;> cases ht
  rfl

/-- What is stored after the damage was reported is found again, but for a leap second within a minute, which is
moved. And with a reader that asks for memory ahead an entry can stay damaged, whatever is put. -/
theorem heals_not_always :
    (∃ s t a, Reached ["cache"] s ∧ s.disk.refusals = [] ∧ s.capacity = none ∧
      a.size < Bytes.range 8 ∧ s.disk.tree.writeDeep (s.pathOf a.key) [1] = .ok t ∧
      ∃ healed, Store.get { s with disk.tree := t } a.key = (healed, .error (.corruption a.key .truncated)) ∧
        ∃ filled, healed.put a.key a = (filled, .ok ()) ∧ filled.Holds a.key a.reread ∧ a.reread ≠ a) ∧
    ∃ s t, Reached ["cache"] s ∧ s.disk.refusals = [] ∧
      s.disk.tree.writeDeep (s.pathOf (sample 1).key) boundless = .ok t ∧
      ∃ left, Store.get { s with disk.tree := t } (sample 1).key = (left, .crashed .panicked) ∧
        left.has (sample 1).key = true ∧ left.recency.isPinned (sample 1).key = true ∧
        left.counters.corruptions = 0 ∧
        ∃ kept, left.put (sample 1).key (sample 1) = (kept, .ok ()) ∧
          (kept.get (sample 1).key).2 = .crashed .panicked :=
  ⟨moves_leap, stays_damaged⟩

end BuildCache.Store
