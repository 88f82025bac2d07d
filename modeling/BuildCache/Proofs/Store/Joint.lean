import BuildCache.Proofs.Store.Heal
import BuildCache.Proofs.Store.Interleaving

/-! # One call after another on a store, in a directory that others place artifact files in -/
namespace BuildCache

namespace Disk

theorem content?_change {d : Disk} {action : Tree → Except Fault Tree} {p : Path}
    (h : ∀ t, action d.tree = .ok t → t.content? p = d.tree.content? p) :
    (d.change action).1.tree.content? p = d.tree.content? p := by
  rcases d.change_cases action with ⟨e, -, htree⟩ | ⟨t, ht, -, htree⟩
  · rw [htree]
  · rw [htree, h t ht]

end Disk

theorem Index.save_keeps {P : Disk → Prop} {d : Disk} {root : Path} {writer : Nat} {i : Index} (h : P d)
    (hmake : ∀ d, P d → P (d.change (·.createDirectories root)).1)
    (hwrite : ∀ d content, P d → P (d.change (·.write (root ++ [s!"{fileName}.{writer}.tmp"]) content)).1)
    (hrename : ∀ d, P d →
      P (d.change (·.rename (root ++ [s!"{fileName}.{writer}.tmp"]) (root ++ [fileName]))).1) :
    P (Index.save d root writer i).1 := by
  have hmade := hmake d h
  simp only [Index.save]
  split
  · next made e hd =>
    rw [hd] at hmade
    exact hmade
  · next made hd =>
    rw [hd] at hmade
    have hwritten := hwrite made (Bytes.ofText i.render) hmade
    revert hwritten
    rcases made.change (·.write (root ++ [s!"{fileName}.{writer}.tmp"]) (Bytes.ofText i.render)) with ⟨written, e | _⟩
    · exact id
    · intro hwritten
      have hrenamed := hrename written hwritten
      simp only
      revert hrenamed
      rcases written.change (·.rename (root ++ [s!"{fileName}.{writer}.tmp"]) (root ++ [fileName])) with ⟨_, e | _⟩ <;>
        exact id

namespace Store

variable {s t : Store} {root p temp : Path} {k l : CacheKey} {a : Artifact} {c : Call} {phase next : Phase} {n : Nat}
  {content : Bytes} {live : List CacheKey}

theorem content?_writeDeep {u v : Tree} (hroot : root.Straight)
    (h : u.writeDeep (artifactPath root k) content = .ok v) (p : Path) :
    v.content? p = if artifactPath root k = p then some content else u.content? p := by
  simp only [Tree.writeDeep, (straight_artifactPath hroot k).resolve_eq, bind, Except.bind] at h
  split at h
  · cases h
  · next made hmade =>
    rw [Tree.write_eq_ok h, ← Tree.content?_createDirectories hmade p, Tree.content?,
      Tree.node?_put _ (artifactPath_ne_nil root k)]
    by_cases hp : artifactPath root k = p
    · rw [if_pos hp, if_pos hp]
    · rw [if_neg hp, if_neg hp, Tree.content?]

/-- Others place a file at the path of a key; it stays away if something is in the way. -/
def place (s : Store) (k : CacheKey) (content : Bytes) : Store :=
  { s with disk.tree := (s.disk.tree.writeDeep (s.pathOf k) content).toOption.getD s.disk.tree }

def length? (s : Store) (k : CacheKey) : Option Nat := (s.file? k).map (·.length)

/-- The size of the file that a lookup has read. -/
def Phase.size? (k : CacheKey) : Phase → Option Nat
  | settle l (.found _ n) => if l = k then some n else none
  | _ => none

/-- The key of a lookup that breaks down. -/
def Phase.crashed? : Phase → Option CacheKey
  | settle k (.crashed _) => some k
  | _ => none

/-- A store with the call that is under way on it, in a directory that others place files in. -/
structure Joint where
  store : Store
  running : Option (Call × Phase)
  /-- Keys of which the store goes by a wrong size. -/
  misjudged : List CacheKey
  /-- Keys that lookups which broke down have left pinned. -/
  stranded : List CacheKey

/-- A call begins or does its next phase, others place a file, or the index is saved between calls. -/
inductive Event
  | begin (c : Call)
  | step
  | place (k : CacheKey) (content : Bytes)
  | save

namespace Joint

/-- The sizes that the store goes by for a key: the one it tracks, and the one it has just read. -/
def sizes (x : Joint) (k : CacheKey) : List Nat :=
  (x.store.tracked? k).toList ++ (x.running.bind (·.2.size? k)).toList

def wrong (x : Joint) (k : CacheKey) : Bool := (x.sizes k).any fun n => x.store.length? k ≠ some n

/-- Keys whose sizes are right are misjudged no more. -/
def review (x : Joint) : Joint := { x with misjudged := x.misjudged.filter x.wrong }

/-- A key comes to be misjudged only as others place a file of it. -/
def move (x : Joint) : Event → Joint
  | .begin c => if x.running.isSome then x else { x with running := some (c, c.first) }
  | .step =>
    match x.running with
    | none => x
    | some (c, phase) => review { x with
        store := (phase.step x.store).1
        running := (phase.step x.store).2.getRight?.map (c, ·)
        stranded := phase.crashed?.toList ++ x.stranded }
  | .place k content => review { x with store := x.store.place k content, misjudged := k :: x.misjudged }
  | .save => if x.running.isSome then x else { x with store := x.store.saveIndex.1 }

/-- Entries may be wrong from the start. -/
def start (s : Store) : Joint := review ⟨s, none, s.recency.toList.map (·.1), []⟩

def run (s : Store) (events : List Event) : Joint := events.foldl move (start s)

/-- The call whose last phase comes next, with its answer. -/
def answer? (x : Joint) : Option (Call × Answer) :=
  x.running.bind fun (c, phase) => (phase.step x.store).2.getLeft?.map (c, ·)

end Joint

/-- A store without a limit, between calls, none of whose calls on the disk is refused. -/
structure Unlimited (s : Store) : Prop where
  refusals : s.disk.refusals = []
  capacity : s.capacity = none
  listed : s.recency.Listed
  straight : s.root.Straight

/-- Elsewhere the files are as they were, and at the path of the key there is the new one if there is a new one. -/
theorem content?_place (hroot : s.root.Straight) (k : CacheKey) (content : Bytes) (p : Path) :
    (s.place k content).disk.tree.content? p = s.disk.tree.content? p ∨
      s.pathOf k = p ∧ (s.place k content).disk.tree.content? p = some content := by
  rw [place]
  cases h : s.disk.tree.writeDeep (s.pathOf k) content with
  | error e => exact .inl rfl
  | ok t =>
    have hcontent := content?_writeDeep hroot h p
    split at hcontent
    · next hp => exact .inr ⟨hp, hcontent⟩
    · exact .inl hcontent

theorem content?_place_of_ne (hroot : s.root.Straight) (hp : s.pathOf k ≠ p) :
    (s.place k content).disk.tree.content? p = s.disk.tree.content? p :=
  (content?_place hroot k content p).resolve_right fun h => hp h.1

theorem file?_place_of_ne (hroot : s.root.Straight) (hl : k ≠ l) : (s.place k content).file? l = s.file? l :=
  content?_place_of_ne hroot fun he => hl (pathOf_inj he)

theorem file?_place_ne_none (hroot : s.root.Straight) (hf : s.file? l ≠ none) :
    (s.place k content).file? l ≠ none := by
  rcases content?_place hroot k content (s.pathOf l) with he | ⟨-, he⟩
  · exact fun h => hf (he.symm.trans h)
  · exact fun h => Option.some_ne_none content (he.symm.trans h)

theorem refusals_saveIndex (hd : s.disk.refusals = []) : s.saveIndex.1.disk.refusals = [] :=
  Index.save_keeps (P := fun d => d.refusals = []) hd (fun _ h => Disk.refusals_change h _)
    (fun _ _ h => Disk.refusals_change h _) fun _ h => Disk.refusals_change h _

theorem file?_saveIndex (s : Store) (k : CacheKey) : s.saveIndex.1.file? k = s.file? k := by
  have hnil : ∀ name, s.root ++ [name] ≠ [] := fun name => by simp
  have hne : ∀ name, s.root ++ [name] ≠ artifactPath s.root k := fun name => root_ne_artifactPath _ _ _
  refine Index.save_keeps (P := fun d => d.tree.content? (artifactPath s.root k) = s.file? k) rfl
    (fun d h => ?_) (fun d content h => ?_) fun d h => ?_
  · exact (Disk.content?_change fun t ht => Tree.content?_createDirectories ht _).trans h
  · refine (Disk.content?_change fun t ht => Tree.content?_congr ?_).trans h
    rw [Tree.write_eq_ok ht, Tree.node?_put _ (hnil _), if_neg (hne _)]
  · refine (Disk.content?_change fun t ht => Tree.content?_congr ?_).trans h
    obtain ⟨moved, -, rfl⟩ := Tree.rename_eq_ok ht
    rw [Tree.node?_put _ (hnil _), if_neg (hne _), Tree.node?_erase _ (hnil _), if_neg (hne _)]

theorem file?_readFile (s : Store) (k l : CacheKey) : (s.readFile k).1.file? l = s.file? l := by
  rw [file?, tree_readFile, readFile_fst]
  rfl

namespace Phase

/-- How often a key is pinned while a phase is next. -/
def held (k : CacheKey) : Phase → Option Nat
  | read l | settle l _ => if l = k then some 1 else none
  | _ => none

/-- A phase is one of a call, and has what it needs of the files. -/
def Fits (c : Call) (s : Store) : Phase → Prop
  | pin k | read k => c = .get k
  | settle k reading => c = .get k ∧ ∀ a n, reading = .found a n → s.file? k ≠ none
  | check k a => c = .put k a
  | touch k => (∃ a, c = .put k a) ∧ s.file? k ≠ none
  | makeShard a | writeTemp a | publish a _ => c = .put a.key a
  | remove k => c = .remove k
  | gc live => c = .gc live

theorem fits_first (c : Call) (s : Store) : c.first.Fits c s ∧ c.first.Ready s ∧ ∀ k, c.first.held k = none := by
  cases c <;> exact ⟨rfl, trivial, fun _ => rfl⟩

theorem size?_eq_some : phase.size? k = some n ↔ ∃ a, phase = .settle k (.found a n) := by
  constructor
  · intro h
    cases phase with
    | settle l reading =>
      cases reading with
      | found a m =>
        simp only [size?, Option.ite_none_right_eq_some, Option.some.injEq] at h
        obtain ⟨rfl, rfl⟩ := h
        exact ⟨a, rfl⟩
      | _ => cases h
    | _ => cases h
  · rintro ⟨a, rfl⟩
    exact if_pos rfl

theorem size?_first (c : Call) (k : CacheKey) : c.first.size? k = none := by
  cases c <;> rfl

theorem fits_next (hf : phase.Fits c s) (h : phase.step s = (t, .inr next)) : next.Fits c t := by
  cases phase with
  | pin k =>
    cases h
    exact hf
  | read k =>
    cases h
    refine ⟨hf, fun a n hfound => ?_⟩
    have hsome := file?_of_found hfound
    rw [file?_readFile]
    exact Option.isSome_iff_ne_none.mp hsome
  | check k a =>
    simp only [step] at h
    split at h
    · cases h
    · next hkey =>
      obtain rfl : a.key = k := not_not.mp hkey
      cases h
      split
      · next hhas =>
        rw [has_eq_isSome] at hhas
        exact ⟨⟨a, hf⟩, Option.isSome_iff_ne_none.mp hhas⟩
      · exact hf
  | makeShard a =>
    simp only [step] at h
    split at h
    · cases h
    · cases h
      exact hf
  | writeTemp a =>
    simp only [step] at h
    split at h
    · cases h
    · cases h
      exact hf
  | settle k reading | touch k | publish a temp | remove k | gc live => cases h

theorem pinned_eq_held (hp : s.recency.pins.find? k = phase.held k) (hback : phase.crashed? ≠ some k) :
    (phase.pinned s).find? k = (phase.step s).2.getRight?.bind (held k) := by
  cases phase with
  | pin l =>
    have hp : s.recency.pins.find? k = none := hp
    have hheld : (step s (.pin l)).2.getRight?.bind (held k) = if l = k then some 1 else none := rfl
    rw [hheld, pinned, Recency.pin, KeyMap.find?_insert]
    split
    · next hl => rw [hl, hp, Option.getD_none]
    · exact hp
  | read l => exact hp
  | settle l reading =>
    have hp : s.recency.pins.find? k = if l = k then some 1 else none := hp
    have hunpinned : (s.recency.unpin l).pins.find? k = none := by
      simp only [Recency.unpin]
      by_cases hl : l = k
      · subst hl
        rw [if_pos rfl] at hp
        simp [hp, KeyMap.find?_erase]
      · rw [if_neg hl] at hp
        split
        · exact hp
        · split <;> simp [KeyMap.find?_erase, hl, hp]
    cases reading with
    | crashed c =>
      refine hp.trans (if_neg fun hl => hback ?_)
      exact congrArg some hl
    | _ => exact hunpinned
  | check l a =>
    simp only [pinned, step]
    split
    · exact hp
    · split <;> exact hp
  | makeShard a =>
    simp only [pinned, step]
    split <;> exact hp
  | writeTemp a =>
    simp only [pinned, step]
    split <;> exact hp
  | touch k | publish a temp | remove k | gc live => exact hp

theorem Fits.place (hroot : s.root.Straight) (hf : phase.Fits c s) : phase.Fits c (s.place k content) := by
  cases phase with
  | settle l reading => exact ⟨hf.1, fun a n hfound => file?_place_ne_none hroot (hf.2 a n hfound)⟩
  | touch l => exact ⟨hf.1, file?_place_ne_none hroot hf.2⟩
  | _ => exact hf

theorem Ready.place (hroot : s.root.Straight) (hr : phase.Ready s) : phase.Ready (s.place k content) := by
  cases phase with
  | publish a temp => exact ⟨(content?_place_of_ne hroot (hr.temp_ne_pathOf k).symm).trans hr.1, hr.2⟩
  | _ => trivial

end Phase

theorem length?_of_found (h : (s.readFile k).2 = .found a n) : s.length? k = some n := by
  obtain ⟨raw, hread, -, rfl⟩ := h ▸ tells_readFile s k
  rw [length?, file?, pathOf, Tree.content?_eq_some.mpr hread]
  rfl

theorem Turns.wrong {file : Option Bytes} {size : Option Nat} (h : Turns s phase k file size) (hsize : size = some n)
    (hwrong : file.map (·.length) ≠ some n) :
    (s.tracked? k = some n ∨ phase.size? k = some n) ∧ s.length? k ≠ some n := by
  cases h with
  | keeps => exact ⟨.inl hsize, hwrong⟩
  | finds hphase =>
    subst hphase
    exact ⟨.inr ((if_pos rfl).trans hsize), hwrong⟩
  | misses | clears => cases hsize
  | places =>
    cases hsize
    exact absurd rfl hwrong

theorem Turns.tracked_ne_none {file : Option Bytes} {size : Option Nat} (h : Turns s phase k file size)
    (hk : s.tracked? k ≠ none) (hf : file ≠ none) : size ≠ none := by
  cases h with
  | keeps => exact hk
  | finds | places => exact Option.some_ne_none _
  | misses | clears => exact absurd rfl hf

namespace Joint

variable {x : Joint} {e : Event}

theorem wrong_eq_true : x.wrong k = true ↔ ∃ n, n ∈ x.sizes k ∧ x.store.length? k ≠ some n := by
  simp [wrong]

theorem mem_sizes : n ∈ x.sizes k ↔ x.store.tracked? k = some n ∨
    ∃ c phase, x.running = some (c, phase) ∧ phase.size? k = some n := by
  rw [sizes, List.mem_append, Option.mem_toList, Option.mem_toList, Option.bind_eq_some_iff]
  exact or_congr_right ⟨fun ⟨⟨c, phase⟩, h⟩ => ⟨c, phase, h⟩, fun ⟨c, phase, h⟩ => ⟨⟨c, phase⟩, h⟩⟩

theorem mem_review : k ∈ x.review.misjudged ↔ k ∈ x.misjudged ∧ x.wrong k = true := List.mem_filter

theorem misjudged_move (h : k ∈ (x.move e).misjudged) : k ∈ x.misjudged ∨ ∃ content, e = .place k content := by
  cases e with
  | begin c | save =>
    simp only [move] at h
    split at h <;> exact .inl h
  | step =>
    simp only [move] at h
    split at h
    · exact .inl h
    · exact .inl (mem_review.mp h).1
  | place l content =>
    rcases List.mem_cons.mp (mem_review.mp h).1 with rfl | hk
    · exact .inr ⟨content, rfl⟩
    · exact .inl hk

theorem next_eq {c' : Call} (h : (phase.step s).2.getRight?.map (c, ·) = some (c', next)) :
    c = c' ∧ phase.step s = ((phase.step s).1, .inr next) := by
  obtain ⟨next', hright, hpair⟩ := Option.map_eq_some_iff.mp h
  cases hpair
  exact ⟨rfl, Prod.ext rfl (Sum.getRight?_eq_some_iff.mp hright)⟩

/-- What holds while a call is under way. -/
structure Guarded (x : Joint) : Prop where
  sane : Sane x.store
  straight : x.store.root.Straight
  pins : ∀ k, k ∉ x.stranded → x.store.recency.pins.find? k = x.running.bind (·.2.held k)
  judged : ∀ k, x.wrong k = true → k ∈ x.misjudged
  fits : ∀ c phase, x.running = some (c, phase) → phase.Fits c x.store ∧ phase.Ready x.store

namespace Guarded

theorem start (h : Unlimited s) : Guarded (start s) where
  sane := by
    obtain ⟨m, hm⟩ := h.listed
    exact ⟨h.refusals, h.capacity, m, hm.tracks⟩
  straight := h.straight
  pins := by
    intro k _
    obtain ⟨m, hm⟩ := h.listed
    exact congrArg (KeyMap.find? · k) hm.pins_eq
  judged := by
    intro k hk
    refine mem_review.mpr ⟨?_, hk⟩
    obtain ⟨n, hn, -⟩ := wrong_eq_true.mp hk
    rcases mem_sizes.mp hn with htracked | ⟨c, phase, hrun, -⟩
    · exact List.mem_map_of_mem (f := (·.1)) (KeyMap.mem_of_find? htracked)
    · cases hrun
  fits := fun _ _ hrun => by cases hrun

theorem begin (h : Guarded x) (c : Call) : Guarded (x.move (.begin c)) := by
  simp only [move]
  split
  · exact h
  · next hidle =>
    rw [Option.not_isSome_iff_eq_none] at hidle
    obtain ⟨hfits, hready, hheld⟩ := Phase.fits_first c x.store
    refine ⟨h.sane, h.straight, ?_, fun k hk => ?_, fun c' phase hrun => ?_⟩
    · intro k hk
      rw [h.pins k hk, hidle]
      exact (hheld k).symm
    · apply h.judged k
      obtain ⟨n, hn, hne⟩ := wrong_eq_true.mp hk
      refine wrong_eq_true.mpr ⟨n, mem_sizes.mpr ?_, hne⟩
      refine (mem_sizes.mp hn).imp_right fun ⟨c', phase, hrun, hsize⟩ => ?_
      cases hrun
      rw [Phase.size?_first] at hsize
      cases hsize
    · cases hrun
      exact ⟨hfits, hready⟩

theorem effect (h : Guarded x) (hrun : x.running = some (c, phase)) : Effect phase x.store (phase.step x.store).1 :=
  Phase.effect h.sane (h.fits c phase hrun).2

theorem wrong_step (h : Guarded x) (hrun : x.running = some (c, phase)) (hk : (x.move .step).wrong k = true) :
    x.wrong k = true := by
  obtain ⟨n, hn, hne⟩ := wrong_eq_true.mp hk
  simp only [move, hrun] at hn hne
  rcases mem_sizes.mp hn with htracked | ⟨c', next, hnext, hsize⟩
  · obtain ⟨hsizes, hwrong⟩ := ((h.effect hrun).turns k).wrong htracked hne
    exact wrong_eq_true.mpr ⟨n, mem_sizes.mpr (hsizes.imp_right fun hsize => ⟨c, phase, hrun, hsize⟩), hwrong⟩
  · -- the size of what a lookup has just read is that of the file
    obtain ⟨-, hstep⟩ := next_eq hnext
    obtain ⟨a, rfl⟩ := Phase.size?_eq_some.mp hsize
    obtain ⟨rfl, hfound⟩ := Phase.settle_next hstep
    refine absurd ?_ hne
    rw [← length?_of_found hfound.symm]
    show length? (x.store.readFile k).1 k = _
    rw [length?, file?_readFile, length?]

theorem step (h : Guarded x) : Guarded (x.move .step) := by
  cases hrun : x.running with
  | none => rwa [move, hrun]
  | some call =>
    obtain ⟨c, phase⟩ := call
    have heffect := h.effect hrun
    obtain ⟨hfits, hready⟩ := h.fits c phase hrun
    have hwrong := fun k => h.wrong_step (k := k) hrun
    simp only [move, hrun] at hwrong ⊢
    refine ⟨heffect.sane, heffect.root_eq ▸ h.straight, ?_, fun k hk => mem_review.mpr ⟨h.judged k (hwrong k hk), hk⟩,
      fun c' next hnext => ?_⟩
    · intro k hk
      obtain ⟨hback, hk⟩ := not_or.mp (mt List.mem_append.mpr hk)
      have hp := h.pins k hk
      rw [hrun, Option.bind_some] at hp
      refine (congrArg (KeyMap.find? · k) heffect.pins).trans ?_
      refine (Phase.pinned_eq_held hp fun hcrash => hback (Option.mem_toList.mpr hcrash)).trans ?_
      rw [review, Option.bind_map]
      rfl
    · obtain ⟨rfl, hstep⟩ := next_eq hnext
      exact ⟨Phase.fits_next hfits hstep, Phase.ready_next hstep⟩

theorem place (h : Guarded x) (k : CacheKey) (content : Bytes) : Guarded (x.move (.place k content)) where
  sane := ⟨h.sane.refusals, h.sane.capacity, h.sane.tracked⟩
  straight := h.straight
  pins := h.pins
  judged := by
    intro l hl
    refine mem_review.mpr ⟨?_, hl⟩
    by_cases hk : k = l
    · exact hk ▸ List.mem_cons_self
    · refine List.mem_cons_of_mem k (h.judged l ?_)
      obtain ⟨n, hn, hne⟩ := wrong_eq_true.mp hl
      refine wrong_eq_true.mpr ⟨n, hn, ?_⟩
      rwa [length?, show (x.move (.place k content)).store = x.store.place k content from rfl,
        file?_place_of_ne h.straight hk] at hne
  fits := fun c phase hrun => by
    obtain ⟨hfits, hready⟩ := h.fits c phase hrun
    exact ⟨hfits.place h.straight, hready.place h.straight⟩

theorem save (h : Guarded x) : Guarded (x.move .save) := by
  simp only [move]
  split
  · exact h
  · next hidle =>
    rw [Option.not_isSome_iff_eq_none] at hidle
    refine ⟨⟨refusals_saveIndex h.sane.refusals, h.sane.capacity, h.sane.tracked⟩, h.straight, h.pins, fun k hk => ?_,
      fun c phase hrun => by cases hidle.symm.trans hrun⟩
    apply h.judged k
    obtain ⟨n, hn, hne⟩ := wrong_eq_true.mp hk
    refine wrong_eq_true.mpr ⟨n, hn, ?_⟩
    rwa [length?, file?_saveIndex] at hne

theorem move (h : Guarded x) (e : Event) : Guarded (x.move e) := by
  cases e with
  | begin c => exact h.begin c
  | step => exact h.step
  | place k content => exact h.place k content
  | save => exact h.save

theorem run (h : Guarded x) (events : List Event) : Guarded (events.foldl Joint.move x) := by
  induction events generalizing x with
  | nil => exact h
  | cons e events ih => exact ih (h.move e)

theorem tracked_move (h : Guarded x) (hk : x.store.tracked? k ≠ none) (hf : (x.move e).store.file? k ≠ none) :
    (x.move e).store.tracked? k ≠ none := by
  cases e with
  | begin c =>
    simp only [Joint.move]
    split <;> exact hk
  | step =>
    cases hrun : x.running with
    | none => rwa [Joint.move, hrun]
    | some call =>
      have hturns := (h.effect hrun).turns k
      simp only [Joint.move, hrun, review] at hf ⊢
      exact hturns.tracked_ne_none hk hf
  | place l content => exact hk
  | save =>
    simp only [Joint.move]
    split <;> exact hk

theorem tracked_run (h : Guarded x) (hk : x.store.tracked? k ≠ none) (events : List Event)
    (hf : ∀ before, before <+: events → (before.foldl Joint.move x).store.file? k ≠ none) :
    (events.foldl Joint.move x).store.tracked? k ≠ none := by
  induction events generalizing x with
  | nil => exact hk
  | cons e events ih =>
    have hnext := hf [e] (List.prefix_append [e] events)
    exact ih (h.move e) (h.tracked_move hk hnext) fun before hb => hf (e :: before)
      (List.cons_prefix_cons.mpr ⟨rfl, hb⟩)

/-- Between calls nothing is pinned but what lookups that broke down have left so. -/
theorem isPinned_eq (h : Guarded x) (hidle : x.running = none) (hk : k ∉ x.stranded) :
    x.store.recency.isPinned k = false := by
  rw [Recency.isPinned, KeyMap.contains, h.pins k hk, hidle]
  rfl

end Guarded
end Joint
end Store
end BuildCache
