import BuildCache.Index
import BuildCache.Proofs.Disk
import BuildCache.Proofs.Hex
import BuildCache.Proofs.Json

/-! # A saved index is read back -/
namespace BuildCache

namespace Json

theorem readKeys_spell (ms : List (String × Json)) : readKeys (ms.map spell) = some ms := by
  induction ms with
  | nil => rfl
  | cons m ms ih => simp [readKeys, spell, pieces, text?_pieces, ih]

@[simp] theorem asRecord?_ofMembers (names : List String) (ms : List (String × Json)) :
    (ofMembers ms).asRecord? names = names.mapM (unique? · ms) := by
  show (do names.mapM (unique? · (← readKeys (ms.map spell)))) = _
  rw [readKeys_spell]
  rfl

theorem asNatUpTo?_ofNat {limit n : Nat} (h : n ≤ limit) : (ofNat n).asNatUpTo? limit = some n := by
  simp [asNatUpTo?, asNat?, ofNat, h]

end Json

theorem CacheKey.ofJson?_toJson (k : CacheKey) : CacheKey.ofJson? k.toJson = some k := by
  have htext : k.toJson.asText? = some k.digest.toHex := by
    simp [CacheKey.toJson, Digest.toJson, Json.asText?, Json.ofText, Json.pieces, Json.text?_pieces]
  simp [CacheKey.ofJson?, Digest.ofJson?, htext, Digest.parse_toHex]

namespace Index

variable {entries : List (CacheKey × Nat)} {e : CacheKey × Nat} {i : Index} {d d' : Disk} {root : Path}
  {writer : Nat}

theorem entryOfJson?_entryToJson (h : e.2 < Bytes.range 8) : entryOfJson? (entryToJson e) = some e := by
  have hsize : (Json.ofNat e.2).asNatUpTo? 0xffffffffffffffff = some e.2 := by
    apply Json.asNatUpTo?_ofNat
    simp only [Bytes.range] at h
    omega
  simp [entryOfJson?, entryToJson, Json.unique?, CacheKey.ofJson?_toJson, hsize]

theorem plain_toJson (i : Index) : i.toJson.Plain := by
  refine .ofMembers fun m hm => ?_
  rcases List.mem_pair.mp hm with rfl | rfl
  · exact .ofNat _
  · refine .array fun v hv => ?_
    obtain ⟨e, -, rfl⟩ := List.mem_map.mp hv
    refine .ofMembers fun m hm => ?_
    rcases List.mem_pair.mp hm with rfl | rfl
    · exact .ofText _
    · exact .ofNat _

theorem mapM_entryOfJson? (h : ∀ e ∈ entries, e.2 < Bytes.range 8) :
    (entries.map entryToJson).mapM entryOfJson? = some entries := by
  induction entries with
  | nil => rfl
  | cons e entries ih =>
    obtain ⟨he, hentries⟩ := List.forall_mem_cons.mp h
    simp [entryOfJson?_entryToJson he, ih hentries]

/-- The text of an index is read as that index, if its numbers have their widths. -/
theorem parse_render (hversion : i.version < Bytes.range 4) (hsizes : ∀ e ∈ i.entries, e.2 < Bytes.range 8) :
    parse i.render = .ok i := by
  have hnumber : (Json.ofNat i.version).asNatUpTo? 0xffffffff = some i.version := by
    apply Json.asNatUpTo?_ofNat
    simp only [Bytes.range] at hversion
    omega
  have hjson : ofJson? i.toJson = some i := by
    simp [ofJson?, toJson, Json.unique?, Json.asArray?, hnumber, mapM_entryOfJson? hsizes]
  have hparse : Json.parse? i.render = some i.toJson := (plain_toJson i).parse?_write (.indented 0)
  simp [parse, hparse, hjson]

theorem ofFile?_ofText (h : parse i.render = .ok i) :
    ofFile? (Bytes.ofText i.render) = if i.version = Artifact.formatVersion then some i else none := by
  simp [ofFile?, Bytes.toText?_ofText, h, Except.toOption]

/-- The file of an index is read as that index, if every size in it has 64 bits. -/
theorem ofFile?_render (h : ∀ e ∈ entries, e.2 < Bytes.range 8) :
    ofFile? (Bytes.ofText (ofEntries entries).render) = some (ofEntries entries) := by
  have hversion : Artifact.formatVersion < Bytes.range 4 := by decide
  rw [ofFile?_ofText (parse_render hversion h)]
  exact if_pos rfl

theorem content?_save (h : Index.save d root writer i = (d', .ok ())) :
    d'.tree.content? (root ++ [Index.fileName]) = some (Bytes.ofText i.render) := by
  have hnil : ∀ name, root ++ [name] ≠ [] := fun name => by simp
  apply Tree.content?_eq_some.mpr
  simp only [Index.save] at h
  split at h
  · cases h
  · next made hmade =>
    split at h
    · cases h
    · next written hwritten =>
      split at h
      · cases h
      · next moved hmoved =>
        cases h
        obtain ⟨content, hcontent, htree⟩ := Tree.rename_eq_ok (Disk.change_eq_ok hmoved)
        rw [Tree.write_eq_ok (Disk.change_eq_ok hwritten), Tree.node?_put _ (hnil _), if_pos rfl] at hcontent
        rw [htree, Tree.node?_put _ (hnil _), if_pos rfl, ← hcontent]

theorem load_of_content? {content : Bytes} (hd : d.refusals.head? ≠ some true)
    (h : d.tree.content? (root ++ [fileName]) = some content) : (load d root).2 = ofFile? content := by
  have hread : (d.look (·.read (root ++ [fileName]))).2 = .ok content := by
    rw [Disk.look_allowed hd, Tree.read_eq_ok, ← Tree.content?_eq_some, h]
  simp only [load]
  split
  · next hlook =>
    rw [hlook] at hread
    cases hread
    rfl
  · next hlook =>
    rw [hlook] at hread
    cases hread

/-- On a disk that refuses nothing the index is written, if its two places are no directories. -/
theorem save_ok {made : Tree} (i : Index) (hd : d.refusals = [])
    (hmade : d.tree.createDirectories root = .ok made)
    (hroot : made.node? root = some .directory)
    (htemp : made.node? (root ++ [s!"{fileName}.{writer}.tmp"]) ≠ some .directory)
    (hplace : made.node? (root ++ [fileName]) ≠ some .directory) :
    ∃ tree, save d root writer i = (⟨tree, []⟩, .ok ()) ∧ ∀ q, tree.node? q =
      if root ++ [fileName] = q then some (.file (Bytes.ofText i.render))
      else if root ++ [s!"{fileName}.{writer}.tmp"] = q then none else made.node? q := by
  have hdir : ∀ name, made.node? (root ++ [name]).dropLast = some .directory := fun name => by
    rw [List.dropLast_concat, hroot]
  obtain ⟨written, moved, hwrite, hrename, -, hnode⟩ := Tree.write_rename_ok (hdir _) (hdir _) htemp hplace
  have hmake : d.change (·.createDirectories root) = (⟨made, []⟩, .ok ()) := Disk.change_ok hd hmade
  have hwritten : Disk.change ⟨made, []⟩ (·.write _ (Bytes.ofText i.render)) = (⟨written, []⟩, .ok ()) :=
    Disk.change_ok rfl hwrite
  have hmoved : Disk.change ⟨written, []⟩ (·.rename _ _) = (⟨moved, []⟩, .ok ()) := Disk.change_ok rfl hrename
  refine ⟨moved, ?_, hnode⟩
  simp only [save, hmake]
  rw [hwritten]
  simp only
  rw [hmoved]

/-- An index whose version has 32 bits and whose sizes have 64 is read back from its text as it is,
whatever its entries, their order and their repetitions. So it is what is loaded where it was saved, and
nothing is where it is of another version than the artifacts'; and it is saved wherever nothing on the
disk is in the way. -/
theorem reads_back (i : Index) (hversion : i.version < Bytes.range 4)
    (hsizes : ∀ e ∈ i.entries, e.2 < Bytes.range 8) :
    parse i.render = .ok i ∧
    (∀ d root writer d', save d root writer i = (d', .ok ()) →
      d'.tree.content? (root ++ [fileName]) = some (Bytes.ofText i.render) ∧
      (d'.refusals.head? ≠ some true →
        (load d' root).2 = if i.version = Artifact.formatVersion then some i else none)) ∧
    ∀ (d : Disk) (root : Path) (writer : Nat), d.refusals = [] → root.Straight →
      (∀ q, q <+: root → d.tree.isFile q = false) →
      d.tree.node? (root ++ [fileName]) ≠ some .directory →
      d.tree.node? (root ++ [s!"{fileName}.{writer}.tmp"]) ≠ some .directory →
      ∃ tree, save d root writer i = (⟨tree, []⟩, .ok ()) := by
  have hparse := parse_render hversion hsizes
  refine ⟨hparse, fun d root writer d' hsave => ?_, fun d root writer hd hroot hway hplace htemp => ?_⟩
  · have hcontent := content?_save hsave
    exact ⟨hcontent, fun hallowed => by rw [load_of_content? hallowed hcontent, ofFile?_ofText hparse]⟩
  · obtain ⟨made, hmade, hnode⟩ := Tree.createDirectories_ok hroot hway
    have hbelow : ∀ name, made.node? (root ++ [name]) = d.tree.node? (root ++ [name]) := fun name => by
      rw [hnode, if_neg fun hprefix => by simpa using hprefix.length_le]
    obtain ⟨tree, hsave, -⟩ := save_ok i hd hmade (by rw [hnode, if_pos (List.prefix_refl _)])
      (by rwa [hbelow]) (by rwa [hbelow])
    exact ⟨tree, hsave⟩

/-- The largest version and the largest size, with a key that comes twice. -/
def extreme : Index :=
  let key : CacheKey := ⟨⟨List.replicate 32 171, by decide⟩⟩
  ⟨0xffffffff, [(key, 0xffffffffffffffff), (key, 0)]⟩

theorem reads_back_extreme : parse extreme.render = .ok extreme ∧
    ∃ tree, save .empty ["cache"] 7 extreme = (⟨tree, []⟩, .ok ()) ∧ (load ⟨tree, []⟩ ["cache"]).2 = none := by
  obtain ⟨hparse, hloads, hsaves⟩ := reads_back extreme (by decide) (by decide)
  have hway : ∀ q, q <+: ["cache"] → Disk.empty.tree.isFile q = false := fun q _ => by cases q <;> rfl
  obtain ⟨tree, hsave⟩ := hsaves .empty ["cache"] 7 rfl (Path.straight_resolve ["cache"]) hway (by decide) (by decide)
  exact ⟨hparse, tree, hsave, (hloads _ _ _ _ hsave).2 nofun⟩

end Index
end BuildCache
