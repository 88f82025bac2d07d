import BuildCache.Proofs.Recency
import BuildCache.Proofs.Store.Calls
import BuildCache.Proofs.Store.Sound

/-! # The phases of a call, between which those of other calls may come, and what each does to an entry -/
namespace BuildCache.Store

variable {s t u : Store} {k l : CacheKey} {a : Artifact} {p temp : Path} {kind : Corruption}

inductive Call
  | get (k : CacheKey)
  | put (k : CacheKey) (a : Artifact)
  | remove (k : CacheKey)
  | gc (live : List CacheKey)

def Call.op : Call → Op
  | get k => .get k
  | put k a => .put k a
  | remove k => .remove k
  | gc live => .gc live

/-- What a call does next: a section that holds the lock, or a call on the disk without it. -/
inductive Phase
  | pin (k : CacheKey)
  | read (k : CacheKey)
  | settle (k : CacheKey) (reading : Reading)
  | check (k : CacheKey) (a : Artifact)
  | touch (k : CacheKey)
  | makeShard (a : Artifact)
  | writeTemp (a : Artifact)
  | publish (a : Artifact) (temp : Path)
  | remove (k : CacheKey)
  | gc (live : List CacheKey)

def Call.first : Call → Phase
  | get k => .pin k
  | put k a => .check k a
  | remove k => .remove k
  | gc live => .gc live

namespace Phase

/-- Does a phase, which comes to the answer of its call or to the next phase. -/
def step (s : Store) : Phase → Store × (Answer ⊕ Phase)
  | pin k => (s.pin k, .inr (.read k))
  | read k => ((s.readFile k).1, .inr (.settle k (s.readFile k).2))
  | settle k reading => (s.settle k reading).map id (.inl ∘ .found)
  | check k a =>
    (s, if a.key ≠ k then .inl (.done (.error (.keyMismatch k a.key)))
      else .inr (if s.has k then .touch k else .makeShard a))
  | touch k => (s.touch k, .inl (.done (.ok ())))
  | makeShard a =>
    match s.makeShard a.key with
    | (s, .error e) => (s, .inl (.done (.error e)))
    | (s, .ok ()) => (s, .inr (.writeTemp a))
  | writeTemp a =>
    match s.writeTemp a with
    | (s, .error e) => (s, .inl (.done (.error e)))
    | (s, .ok temp) => (s, .inr (.publish a temp))
  | publish a temp => (s.publish a temp).map id (.inl ∘ .done)
  | remove k => (s.remove k).map id (.inl ∘ .whether)
  | gc live => (s.gc live).map id (.inl ∘ .count)

end Phase

/-- The phases of a call with none of another call between them, and the answer. -/
inductive Alone : Store → Phase → Store → Answer → Prop
  | last {s t : Store} {phase : Phase} {answer : Answer} (h : phase.step s = (t, .inl answer)) :
      Alone s phase t answer
  | next {s t u : Store} {phase next : Phase} {answer : Answer} (h : phase.step s = (t, .inr next))
      (hrest : Alone t next u answer) : Alone s phase u answer

/-- Alone, the phases of a call are the call. -/
theorem Call.alone (c : Call) (s : Store) : Alone s c.first (c.op.onStore s).1 (c.op.onStore s).2 := by
  cases c with
  | get k => exact .next rfl (.next rfl (.last rfl))
  | put k a =>
    show Alone s (.check k a) (s.put k a).1 (.done (s.put k a).2)
    simp only [Store.put]
    by_cases hkey : a.key ≠ k
    · rw [if_pos hkey]
      exact .last (by rw [Phase.step, if_pos hkey])
    · obtain rfl := not_not.mp hkey
      rw [if_neg hkey]
      by_cases hhas : s.has a.key = true
      · rw [if_pos hhas]
        exact .next (by rw [Phase.step, if_neg hkey, if_pos hhas]) (.last rfl)
      · rw [if_neg hhas]
        refine .next (by rw [Phase.step, if_neg hkey, if_neg hhas]) ?_
        split
        · next t e ht => exact .last (by rw [Phase.step, ht])
        · next t ht =>
          refine .next (by rw [Phase.step, ht]) ?_
          split
          · next u e hu => exact .last (by rw [Phase.step, hu])
          · next u temp hu => exact .next (by rw [Phase.step, hu]) (.last rfl)
  | remove k => exact .last rfl
  | gc live => exact .last rfl

def file? (s : Store) (k : CacheKey) : Option Bytes := s.disk.tree.content? (s.pathOf k)

def tracked? (s : Store) (k : CacheKey) : Option Nat := KeyMap.find? s.recency.toList k

/-- No call on the disk is refused, there is no limit, and the entries can be listed. -/
structure Sane (s : Store) : Prop where
  refusals : s.disk.refusals = []
  capacity : s.capacity = none
  tracked : s.recency.Tracked

namespace Phase

/-- The temporary file of a phase is written. -/
def Ready (s : Store) : Phase → Prop
  | publish a temp => s.disk.tree.content? temp = some a.encode ∧
      ∃ n < s.nextTemp, temp = tempPath { s with nextTemp := n } a.key
  | _ => True

/-- The temporary file that a phase writes or takes away. -/
def temp? (s : Store) : Phase → Option Path
  | writeTemp a => some (s.tempPath a.key)
  | publish _ temp => some temp
  | _ => none

/-- Whether a phase deletes the entry of a key. -/
def Clears (s : Store) (phase : Phase) (k : CacheKey) : Prop :=
  match phase with
  | remove l => l = k
  | gc live => k ∉ live ∧ s.recency.isPinned k = false
  | settle l (.corrupt _) => l = k
  | _ => False

def pinned (s : Store) : Phase → KeyMap Nat
  | pin k => (s.recency.pin k).pins
  | settle _ (.crashed _) => s.recency.pins
  | settle k _ => (s.recency.unpin k).pins
  | _ => s.recency.pins

end Phase

/-- What can become of the file of a key and of the length that is tracked for it. -/
inductive Turns (s : Store) (phase : Phase) (k : CacheKey) : Option Bytes → Option Nat → Prop
  | keeps : Turns s phase k (s.file? k) (s.tracked? k)
  | finds {a : Artifact} {size : Nat} (h : phase = .settle k (.found a size)) (hnone : s.tracked? k = none) :
      Turns s phase k (s.file? k) (some size)
  | misses (h : phase = .settle k .absent) (hnone : s.file? k = none) : Turns s phase k none none
  | clears (h : phase.Clears s k) : Turns s phase k none none
  | places {a : Artifact} {temp : Path} (h : phase = .publish a temp) (hk : a.key = k)
      (hnone : s.file? k = none) : Turns s phase k (some a.encode) (some a.encode.length)

/-- What a phase does to a store. -/
structure Effect (phase : Phase) (s t : Store) : Prop where
  sane : Sane t
  root_eq : t.root = s.root
  process_eq : t.process = s.process
  nextTemp : s.nextTemp ≤ t.nextTemp
  turns : ∀ k, Turns s phase k (t.file? k) (t.tracked? k)
  others : ∀ p, (∀ k, p ≠ s.pathOf k) → phase.temp? s ≠ some p →
    t.disk.tree.content? p = s.disk.tree.content? p
  pins : t.recency.pins = phase.pinned s

theorem pathOf_congr (h : t.root = s.root) (k : CacheKey) : t.pathOf k = s.pathOf k := by
  rw [pathOf, pathOf, h]

theorem pathOf_inj (h : s.pathOf k = s.pathOf l) : k = l := artifactPath_inj h

theorem has_eq_isSome (s : Store) (k : CacheKey) : s.has k = (s.file? k).isSome := Tree.isFile_eq_isSome _ _

theorem evict_of_unlimited (h : s.capacity = none) : s.evict = s := by rw [evict, h]

/-- A phase that leaves the entries as they are, and all files but its own. -/
theorem Effect.of_disk {phase : Phase} {d : Disk} {n : Nat} (h : Sane s) (hd : d.refusals = [])
    (hfiles : ∀ p, phase.temp? s ≠ some p → d.tree.content? p = s.disk.tree.content? p)
    (htemp : ∀ k, phase.temp? s ≠ some (s.pathOf k)) (hpins : phase.pinned s = s.recency.pins)
    (hnext : s.nextTemp ≤ n) : Effect phase s { s with disk := d, nextTemp := n } where
  sane := ⟨hd, h.capacity, h.tracked⟩
  root_eq := rfl
  process_eq := rfl
  nextTemp := hnext
  turns := by
    intro k
    have hfile : Store.file? { s with disk := d, nextTemp := n } k = s.file? k := hfiles _ (htemp k)
    rw [hfile]
    exact .keeps
  others := fun p _ hp => hfiles p hp
  pins := hpins.symm

theorem Effect.of_recency {phase : Phase} {r : Recency} {counters : Counters} (h : Sane s) (hr : r.Tracked)
    (hturns : ∀ k, Turns s phase k (s.file? k) (KeyMap.find? r.toList k)) (hpins : r.pins = phase.pinned s) :
    Effect phase s { s with recency := r, counters := counters } :=
  ⟨⟨h.refusals, h.capacity, hr⟩, rfl, rfl, Nat.le_refl _, hturns, fun _ _ _ => rfl, hpins⟩

theorem Effect.of_order {phase : Phase} {r : Recency} {counters : Counters} (h : Sane s) (hr : r.Tracked)
    (hfind : ∀ k, KeyMap.find? r.toList k = s.tracked? k) (hpins : r.pins = phase.pinned s) :
    Effect phase s { s with recency := r, counters := counters } := by
  refine .of_recency h hr (fun k => ?_) hpins
  rw [hfind]
  exact .keeps

theorem Effect.touch {phase : Phase} (h : Effect phase s t) (k : CacheKey) : Effect phase s (t.touch k) := by
  obtain ⟨htracked, hfind⟩ := h.sane.tracked.touch k
  refine ⟨⟨h.sane.refusals, h.sane.capacity, htracked⟩, h.root_eq, h.process_eq, h.nextTemp, fun l => ?_,
    h.others, (Recency.pins_touch _ _).trans h.pins⟩
  have hl := h.turns l
  rw [tracked?, ← hfind] at hl
  exact hl

/-- The files and the tracking of some keys may be gone, and nothing else is changed. -/
structure Cleared (gone : CacheKey → Prop) (s t : Store) : Prop where
  sane : Sane t
  root_eq : t.root = s.root
  process_eq : t.process = s.process
  nextTemp : t.nextTemp = s.nextTemp
  entries : ∀ k, t.file? k = s.file? k ∧ t.tracked? k = s.tracked? k ∨
    gone k ∧ t.file? k = none ∧ t.tracked? k = none
  others : ∀ p, (∀ k, p ≠ s.pathOf k) → t.disk.tree.content? p = s.disk.tree.content? p
  pins : t.recency.pins = s.recency.pins

theorem content?_removeFile {d : Disk} (hd : d.refusals = []) (p q : Path) :
    (d.change (·.removeFile p)).1.tree.content? q = if p = q then none else d.tree.content? q := by
  have hswept := d.swept_removeFile p
  split
  · next hp =>
    have hgone := hswept.cleared hd q hp
    rw [Tree.isFile_eq_isSome] at hgone
    exact Option.isSome_eq_false_iff.mp hgone |> Option.isNone_iff_eq_none.mp
  · next hp => exact Tree.content?_congr (hswept.kept q hp)

theorem cleared_remove (h : Sane s) (k : CacheKey) : Cleared (k = ·) s (s.remove k).1 := by
  have hremove : (s.remove k).1 = { s with
      recency := s.recency.erase k, disk := (s.disk.change (·.removeFile (s.pathOf k))).1 } := by
    rw [remove, deleteFile_fst]
    rfl
  obtain ⟨htracked, hfind⟩ := h.tracked.erase k
  have hcontent := content?_removeFile h.refusals (s.pathOf k)
  rw [hremove]
  refine ⟨⟨Disk.refusals_change h.refusals _, h.capacity, htracked⟩, rfl, rfl, rfl, fun l => ?_, fun p hp => ?_,
    Recency.pins_erase _ _⟩
  · by_cases hl : k = l
    · subst hl
      refine .inr ⟨rfl, (hcontent _).trans (if_pos rfl), (hfind k).trans (if_pos rfl)⟩
    · refine .inl ⟨(hcontent _).trans (if_neg fun he => hl (pathOf_inj he)), (hfind l).trans (if_neg hl)⟩
  · exact (hcontent p).trans (if_neg (hp k).symm)

namespace Cleared

variable {gone gone' : CacheKey → Prop}

theorem refl (h : Sane s) : Cleared gone s s := ⟨h, rfl, rfl, rfl, fun _ => .inl ⟨rfl, rfl⟩, fun _ _ => rfl, rfl⟩

theorem mono (h : Cleared gone s t) (hgone : ∀ k, gone k → gone' k) : Cleared gone' s t :=
  { h with entries := fun k => (h.entries k).imp_right fun hk => ⟨hgone k hk.1, hk.2⟩ }

theorem trans (h : Cleared gone s t) (h' : Cleared gone t u) : Cleared gone s u where
  sane := h'.sane
  root_eq := h'.root_eq.trans h.root_eq
  process_eq := h'.process_eq.trans h.process_eq
  nextTemp := h'.nextTemp.trans h.nextTemp
  entries := by
    intro k
    rcases h'.entries k with ⟨hfile, htracked⟩ | hk
    · rw [hfile, htracked]
      exact h.entries k
    · exact .inr hk
  others := by
    intro p hp
    rw [h'.others p fun k => pathOf_congr h.root_eq k ▸ hp k, h.others p hp]
  pins := h'.pins.trans h.pins

theorem effect {phase : Phase} (h : Cleared (phase.Clears s) s t)
    (hpins : phase.pinned s = s.recency.pins) : Effect phase s t where
  sane := h.sane
  root_eq := h.root_eq
  process_eq := h.process_eq
  nextTemp := h.nextTemp.ge
  turns := by
    intro k
    rcases h.entries k with ⟨hfile, htracked⟩ | ⟨hk, hfile, htracked⟩
    · rw [hfile, htracked]
      exact .keeps
    · rw [hfile, htracked]
      exact .clears hk
  others := fun p hp _ => h.others p hp
  pins := h.pins.trans hpins.symm

end Cleared

theorem cleared_sweep (h : Sane s) (removed : Nat) (keys : List CacheKey) :
    Cleared (· ∈ keys) s (s.sweep removed keys).1 :=
  sweep_induction (P := Cleared (· ∈ keys) s)
    (fun _ k hk ht => ht.trans ((cleared_remove ht.sane k).mono fun _ hl => hl ▸ hk)) (.refl h) removed

namespace Phase

theorem effect_found (h : Sane s) (k : CacheKey) (a : Artifact) (size : Nat) :
    Effect (.settle k (.found a size)) s (s.settle k (.found a size)).1 := by
  have hunpinned := h.tracked.unpin k
  simp only [Store.settle]
  split
  · obtain ⟨htracked, hfind⟩ := hunpinned.touch k
    exact .of_order h htracked (fun l => by rw [hfind, Recency.Tracked.toList_unpin, tracked?])
      (Recency.pins_touch _ _)
  · next hnot =>
    rw [hunpinned.contains_eq, Recency.Tracked.toList_unpin, Option.not_isSome_iff_eq_none] at hnot
    obtain ⟨htracked, hfind⟩ := hunpinned.insert k size
    refine .of_recency h htracked (fun l => ?_) (Recency.pins_insert _ _ _)
    rw [hfind, Recency.Tracked.toList_unpin]
    split
    · next hl =>
      subst hl
      exact .finds rfl hnot
    · exact .keeps

theorem effect_absent (h : Sane s) (k : CacheKey) : Effect (.settle k .absent) s (s.settle k .absent).1 := by
  have hunpinned := h.tracked.unpin k
  simp only [Store.settle]
  split
  · exact .of_order h hunpinned (fun l => by rw [Recency.Tracked.toList_unpin, tracked?]) rfl
  · next hnot =>
    rw [Tree.isFile_eq_isSome, Option.not_isSome_iff_eq_none] at hnot
    obtain ⟨htracked, hfind⟩ := hunpinned.erase k
    refine .of_recency h htracked (fun l => ?_) (Recency.pins_erase _ _)
    rw [hfind, Recency.Tracked.toList_unpin]
    split
    · next hl =>
      subst hl
      rw [file?, hnot]
      exact .misses rfl hnot
    · exact .keeps

theorem effect_corrupt (h : Sane s) (k : CacheKey) (kind : Corruption) :
    Effect (.settle k (.corrupt kind)) s (s.settle k (.corrupt kind)).1 := by
  let unpinned : Store := { s with
    recency := s.recency.unpin k, counters.corruptions := s.counters.corruptions + 1 }
  have hcleared : Cleared (k = ·) unpinned (s.settle k (.corrupt kind)).1 :=
    cleared_remove (s := unpinned) ⟨h.refusals, h.capacity, h.tracked.unpin k⟩ k
  refine ⟨hcleared.sane, hcleared.root_eq, hcleared.process_eq, hcleared.nextTemp.ge, fun l => ?_,
    fun p hp _ => hcleared.others p hp, hcleared.pins⟩
  rcases hcleared.entries l with ⟨hfile, htracked⟩ | ⟨hl, hfile, htracked⟩
  · rw [hfile, htracked, tracked?, Recency.Tracked.toList_unpin]
    exact .keeps
  · rw [hfile, htracked]
    exact .clears hl

theorem effect_settle (h : Sane s) (k : CacheKey) (reading : Reading) :
    Effect (.settle k reading) s (s.settle k reading).1 := by
  cases reading with
  | found a size => exact effect_found h k a size
  | absent => exact effect_absent h k
  | corrupt kind => exact effect_corrupt h k kind
  | failed e =>
    exact .of_order h (h.tracked.unpin k) (fun l => by rw [Recency.Tracked.toList_unpin, tracked?]) rfl
  | crashed c => exact .of_order h h.tracked (fun _ => rfl) rfl

theorem Ready.temp_ne_pathOf (h : Ready s (.publish a temp)) (l : CacheKey) : temp ≠ s.pathOf l := by
  obtain ⟨-, n, -, rfl⟩ := h
  exact tempPath_ne_artifactPath { s with nextTemp := n } a.key l

theorem effect_discard (h : Sane s) (hr : Ready s (.publish a temp)) {d : Disk} (hd : d.refusals = [])
    (htree : d.tree = s.disk.tree) : Effect (.publish a temp) s (discard { s with disk := d } temp) := by
  refine .of_disk h (Disk.refusals_change hd _) (fun p hp => ?_)
    (fun l he => hr.temp_ne_pathOf l (Option.some.inj he)) rfl (Nat.le_refl _)
  have hne : temp ≠ p := fun he => hp (congrArg some he)
  rw [← htree]
  exact (content?_removeFile hd temp p).trans (if_neg hne)

theorem effect_place (h : Sane s) (hr : Ready s (.publish a temp)) (hnone : s.file? a.key = none) {d : Disk}
    (hd : d.refusals = []) (hmoved : s.disk.tree.rename temp (s.pathOf a.key) = .ok d.tree)
    (counters : Counters) :
    Effect (.publish a temp) s (evict { s with
      disk := d, recency := s.recency.insert a.key a.encode.length, counters := counters }) := by
  have hcontent : ∀ p, d.tree.content? p = if s.pathOf a.key = p then some a.encode
      else if temp = p then none else s.disk.tree.content? p :=
    Tree.content?_rename hmoved (artifactPath_ne_nil _ _) hr.1
  obtain ⟨htracked, hfind⟩ := h.tracked.insert a.key a.encode.length
  let placed : Store := { s with
    disk := d, recency := s.recency.insert a.key a.encode.length, counters := counters }
  show Effect _ s placed.evict
  rw [evict_of_unlimited (s := placed) h.capacity]
  refine ⟨⟨hd, h.capacity, htracked⟩, rfl, rfl, Nat.le_refl _, fun l => ?_, fun p hp htemp => ?_,
    Recency.pins_insert _ _ _⟩
  · show Turns s _ l (d.tree.content? (s.pathOf l)) (KeyMap.find? (s.recency.insert _ _).toList l)
    rw [hcontent, hfind]
    by_cases hl : a.key = l
    · subst hl
      rw [if_pos rfl, if_pos rfl]
      exact .places rfl rfl hnone
    · rw [if_neg fun he => hl (pathOf_inj he), if_neg (hr.temp_ne_pathOf l), if_neg hl]
      exact .keeps
  · rw [hcontent, if_neg (hp a.key).symm, if_neg fun he => htemp (congrArg some he)]

theorem effect_publish (h : Sane s) (hr : Ready s (.publish a temp)) :
    Effect (.publish a temp) s (s.publish a temp).1 := by
  simp only [Store.publish]
  split
  · exact (effect_discard h hr h.refusals rfl).touch a.key
  · next hhas =>
    rw [has_eq_isSome, Option.not_isSome_iff_eq_none] at hhas
    have hpermits := Disk.refusals_change h.refusals (·.rename temp (s.pathOf a.key))
    split
    · next d e hd =>
      rw [hd] at hpermits
      exact effect_discard h hr hpermits (Disk.change_eq_error hd)
    · next d hd =>
      rw [hd] at hpermits
      exact effect_place h hr hhas hpermits (Disk.change_eq_ok hd) _

theorem makeShard_step_fst (s : Store) (a : Artifact) : ((makeShard a).step s).1 = (s.makeShard a.key).1 := by
  rw [step]
  split <;> next h => rw [h]

theorem writeTemp_step_fst (s : Store) (a : Artifact) : ((writeTemp a).step s).1 = (s.writeTemp a).1 := by
  rw [step]
  split <;> next h => rw [h]

theorem effect (h : Sane s) {phase : Phase} (hr : phase.Ready s) : Effect phase s (phase.step s).1 := by
  cases phase with
  | pin k => exact .of_order h (h.tracked.pin k) (fun _ => rfl) rfl
  | read k =>
    have hread : ((read k).step s).1 = { s with disk := (s.disk.look (·.read (s.pathOf k))).1 } :=
      readFile_fst s k
    rw [hread, Disk.look_eq h.refusals]
    exact .of_order h h.tracked (fun _ => rfl) rfl
  | settle k reading => exact effect_settle h k reading
  | check k a => exact .of_order h h.tracked (fun _ => rfl) rfl
  | touch k =>
    obtain ⟨htracked, hfind⟩ := h.tracked.touch k
    exact .of_order h htracked hfind (Recency.pins_touch _ _)
  | makeShard a =>
    rw [makeShard_step_fst, makeShard_fst]
    refine .of_disk h (Disk.refusals_change h.refusals _) (fun p _ => ?_) (fun _ => nofun) rfl (Nat.le_refl _)
    rcases s.disk.change_cases (·.createDirectories (shardPath s.root a.key)) with ⟨e, -, ht⟩ | ⟨t, hok, -, ht⟩
    · exact congrArg (Tree.content? · p) ht
    · exact (congrArg (Tree.content? · p) ht).trans (Tree.content?_createDirectories hok p)
  | writeTemp a =>
    rw [writeTemp_step_fst, writeTemp_fst]
    refine .of_disk h (Disk.refusals_change h.refusals _) (fun p hp => ?_)
      (fun k he => tempPath_ne_artifactPath s a.key k (Option.some.inj he)) rfl (Nat.le_succ _)
    have hne : s.tempPath a.key ≠ p := fun he => hp (congrArg some he)
    rcases s.disk.change_cases (·.write (s.tempPath a.key) a.encode) with ⟨e, -, ht⟩ | ⟨t, hok, -, ht⟩
    · exact congrArg (Tree.content? · p) ht
    · refine (congrArg (Tree.content? · p) ht).trans (Tree.content?_congr ?_)
      rw [Tree.write_eq_ok hok, Tree.node?_put _ (tempPath_ne_nil _ _), if_neg hne]
  | publish a temp => exact effect_publish h hr
  | remove k =>
    have hcleared : Cleared ((Phase.remove k).Clears s) s (s.remove k).1 := cleared_remove h k
    exact hcleared.effect rfl
  | gc live =>
    refine ((cleared_sweep h 0 _).mono fun l hl => ?_).effect rfl
    have hdoomed := (List.mem_filter.mp hl).2
    simpa [Clears] using hdoomed

end Phase
end BuildCache.Store
