import BuildCache.Proofs.Store.Phases
import BuildCache.Proofs.Store.Refinement

/-! # Calls on one store at once: what no order of their phases loses, and the lookups that come too late -/
namespace BuildCache.Store

variable {s t : Store} {k l : CacheKey} {a : Artifact} {phase next : Phase} {reading : Reading}

/-- A store, what the calls on it do next, and the phases that were done, each with the store before it. -/
structure Shared where
  store : Store
  calls : List Phase
  history : List (Store × Phase)

/-- A call begins, or one that has begun does its next phase. -/
inductive Move
  | begin (c : Call)
  | step (i : Nat)

namespace Shared

def move (x : Shared) : Move → Shared
  | .begin c => { x with calls := x.calls ++ [c.first] }
  | .step i =>
    match x.calls[i]? with
    | none => x
    | some phase => {
        store := (phase.step x.store).1
        calls := x.calls.take i ++ (phase.step x.store).2.getRight?.toList ++ x.calls.drop (i + 1)
        history := x.history ++ [(x.store, phase)] }

def run (s : Store) (moves : List Move) : Shared := moves.foldl move ⟨s, [], []⟩

end Shared

/-- The tracked keys are those that have a file, each with the length of that. -/
def Accurate (s : Store) : Prop :=
  KeyMap.Once s.recency.toList ∧ ∀ k, s.tracked? k = (s.file? k).map (·.length)

/-- A store to begin with; its files may be damaged. -/
structure Consistent (s : Store) : Prop where
  refusals : s.disk.refusals = []
  capacity : s.capacity = none
  listed : s.recency.Listed
  accurate : Accurate s

/-- A phase does not take away the file of an artifact, unless it removes the key or collects what is
not live. -/
def Spares (e : Store × Phase) : Prop :=
  ∀ a : Artifact, a.size < Bytes.range 8 → e.1.file? a.key = some a.encode →
    (e.2.step e.1).1.file? a.key = some a.encode ∨ e.2 = .remove a.key ∨
      ∃ live, e.2 = .gc live ∧ a.key ∉ live

/-- Whether a lookup ends with what is not so any more: the file that it found is gone, or another that is
not damaged is in the place of the one that was. -/
def Phase.overtaken (s : Store) : Phase → Bool
  | settle k (.found ..) => (s.file? k).isNone
  | settle k (.corrupt _) => (s.file? k).any fun content => (Artifact.parse k content).toOption.isSome
  | _ => false

/-- Whether a phase takes away the file of a key even while it is looked up. -/
def Phase.Cuts (k : CacheKey) (phase : Phase) : Prop :=
  phase = .remove k ∨ ∃ kind, phase = .settle k (.corrupt kind)

/-- A lookup read the file of a key, and since then the file was taken away. -/
def Raced (history : List (Store × Phase)) (k : CacheKey) (reading : Reading) : Prop :=
  ∃ earlier read since, history = earlier ++ (read, .read k) :: since ∧ reading = (read.readFile k).2 ∧
    ∃ e ∈ since, e.2.Cuts k

/-- A key is left tracked without a file, or loses a file that is not damaged. -/
def Breaks (k : CacheKey) (s t : Store) : Prop :=
  t.file? k = none ∧ (t.tracked? k ≠ none ∨
    ∃ content a, s.file? k = some content ∧ Artifact.parse k content = .ok a)

/-- A phase spares the files of artifacts; or it ends a lookup that was raced, and does damage. -/
structure Verdict (before : List (Store × Phase)) (e : Store × Phase) : Prop where
  spares : e.2.overtaken e.1 = false → Spares e
  breaks : e.2.overtaken e.1 = true →
    ∃ k reading, e.2 = .settle k reading ∧ Raced before k reading ∧ Breaks k e.1 (e.2.step e.1).1

/-- The temporary file that a phase is about to move into place. -/
def Phase.placing? : Phase → Option Path
  | publish _ temp => some temp
  | _ => none

theorem tempPath_congr (hroot : t.root = s.root) (hprocess : t.process = s.process) (k : CacheKey) (n : Nat) :
    tempPath { t with nextTemp := n } k = tempPath { s with nextTemp := n } k := by
  rw [tempPath_eq, tempPath_eq]
  simp only [hroot, hprocess]

namespace Phase

/-- Only to write a temporary file makes it one to be moved into place, and its name was never used. -/
theorem placing_next {temp : Path} (h : phase.step s = (t, .inr next)) (hp : next.placing? = some temp) :
    ∃ a, phase = .writeTemp a ∧ next = .publish a temp ∧ temp = s.tempPath a.key ∧
      t.disk.tree.content? temp = some a.encode ∧ t.nextTemp = s.nextTemp + 1 ∧ t.root = s.root ∧
      t.process = s.process := by
  cases phase with
  | writeTemp a =>
    have hfst := writeTemp_fst s a
    simp only [step] at h
    split at h
    · cases h
    · next u written hu =>
      obtain ⟨hpath, hfile⟩ := writeTemp_ok hu
      rw [hu] at hfst
      cases h
      cases hp
      subst hfst
      exact ⟨a, rfl, rfl, hpath, Tree.content?_eq_some.mpr hfile, rfl, rfl, rfl⟩
  | makeShard a =>
    simp only [step] at h
    split at h
    · cases h
    · cases h
      cases hp
  | check k a =>
    simp only [step] at h
    split at h
    · cases h
    · cases h
      split at hp <;> cases hp
  | pin k | read k =>
    cases h
    cases hp
  | settle k reading | touch k | publish a temp | remove k | gc live => cases h

theorem ready_next (h : phase.step s = (t, .inr next)) : next.Ready t := by
  cases hp : next.placing? with
  | none =>
    cases next with
    | publish a temp => cases hp
    | _ => trivial
  | some temp =>
    obtain ⟨a, -, rfl, rfl, hcontent, hnext, hroot, hprocess⟩ := placing_next h hp
    refine ⟨hcontent, s.nextTemp, by omega, ?_⟩
    rw [tempPath_congr hroot hprocess]

theorem Ready.step {other : Phase} (h : other.Ready s) (he : Effect phase s t)
    (hother : ∀ temp, other.placing? = some temp → phase.placing? ≠ some temp) : other.Ready t := by
  cases other with
  | publish a temp =>
    obtain ⟨hcontent, n, hn, htemp⟩ := h
    refine ⟨?_, n, Nat.lt_of_lt_of_le hn he.nextTemp, by rw [tempPath_congr he.root_eq he.process_eq, htemp]⟩
    rw [he.others temp, hcontent]
    · rintro l rfl
      exact tempPath_ne_artifactPath { s with nextTemp := n } a.key l htemp.symm
    · intro hsame
      cases phase with
      | writeTemp b =>
        have hpath : tempPath { s with nextTemp := s.nextTemp } b.key = tempPath { s with nextTemp := n } a.key :=
          (Option.some.inj hsame).trans htemp
        exact absurd (tempPath_inj hpath) (Nat.ne_of_gt hn)
      | publish b other => exact hother temp rfl hsame
      | _ => cases hsame
  | _ => trivial

end Phase

namespace Phase

/-- Whether a phase is one of a lookup of a key, while which the key is pinned. -/
def looksUp (k : CacheKey) : Phase → Bool
  | read l => l = k
  | settle l _ => l = k
  | _ => false

/-- As many pins are taken as lookups begin, and no more are given back than lookups end. -/
theorem pinned_next (phase : Phase) (k : CacheKey)
    (h : [phase].countP (looksUp k) ≤ (s.recency.pins.find? k).getD 0) :
    (s.recency.pins.find? k).getD 0 + (phase.step s).2.getRight?.toList.countP (looksUp k) ≤
      ((phase.pinned s).find? k).getD 0 + [phase].countP (looksUp k) := by
  cases phase with
  | pin l => simp [pinned, step, looksUp, List.countP_cons, Recency.find?_pins_pin]
  | read l => simp [pinned, step, looksUp, List.countP_cons]
  | settle l reading =>
    simp only [looksUp, List.countP_cons, List.countP_nil, decide_eq_true_eq, Nat.zero_add] at h
    cases reading <;>
    · simp only [pinned, step, Prod.map_snd, Function.comp_apply, Sum.getRight?_inl, Option.toList_none, looksUp,
        List.countP_cons, List.countP_nil, decide_eq_true_eq, Recency.find?_pins_unpin]
      omega
  | check l a =>
    simp only [pinned, step]
    split
    · exact Nat.le_refl _
    · split <;> exact Nat.le_refl _
  | makeShard a =>
    simp only [pinned, step]
    split <;> exact Nat.le_refl _
  | writeTemp a =>
    simp only [pinned, step]
    split <;> exact Nat.le_refl _
  | touch l | publish a temp | remove l | gc live => exact Nat.le_refl _

theorem settle_next (h : phase.step s = (t, .inr (.settle k reading))) :
    phase = .read k ∧ reading = (s.readFile k).2 := by
  cases phase with
  | read l =>
    cases h
    exact ⟨rfl, rfl⟩
  | pin l => cases h
  | check l a =>
    simp only [step] at h
    split at h
    · cases h
    · split at h <;> cases h
  | makeShard a | writeTemp a =>
    simp only [step] at h
    split at h <;> cases h
  | settle l reading | touch l | publish a temp | remove l | gc live => cases h

theorem Clears.cuts (h : phase.Clears s k) (hpinned : s.recency.isPinned k = true) : phase.Cuts k := by
  cases phase with
  | remove l => exact .inl (congrArg _ h)
  | gc live =>
    rw [h.2] at hpinned
    cases hpinned
  | settle l reading =>
    cases reading with
    | corrupt kind => exact .inr ⟨kind, congrArg (settle · _) h⟩
    | _ => cases h
  | _ => cases h

end Phase

namespace Turns

variable {file : Option Bytes} {size : Option Nat}

theorem file_eq (h : Turns s phase k file size) {content : Bytes} (hf : s.file? k = some content)
    (hclears : ¬ phase.Clears s k) : file = some content := by
  cases h with
  | keeps | finds => exact hf
  | clears hclear => exact absurd hclear hclears
  | misses _ hnone | places _ _ hnone => cases hnone.symm.trans hf

theorem held (h : Turns s phase k file size)
    (hs : ∀ content, s.file? k = some content → s.tracked? k = some content.length) :
    ∀ content, file = some content → size = some content.length := by
  intro content hf
  cases h with
  | keeps => exact hs content hf
  | finds _ hnone => cases hnone.symm.trans (hs content hf)
  | misses | clears => cases hf
  | places =>
    cases hf
    rfl

theorem accurate (h : Turns s phase k file size) (hnot : phase.overtaken s = false)
    (hs : s.tracked? k ≠ none → s.file? k ≠ none) : size ≠ none → file ≠ none := by
  cases h with
  | keeps => exact hs
  | finds hphase =>
    subst hphase
    intro _ hnone
    rw [Phase.overtaken, hnone] at hnot
    cases hnot
  | misses | clears => exact fun hne => absurd rfl hne
  | places => exact fun _ => nofun

end Turns

theorem file?_of_found {size : Nat} (h : (s.readFile k).2 = .found a size) : (s.file? k).isSome := by
  obtain ⟨raw, hf, -⟩ := readFile_found h
  rw [file?, pathOf, Tree.content?_eq_some.mpr hf]
  rfl

theorem file?_of_corrupt {kind : Corruption} (h : (s.readFile k).2 = .corrupt kind) :
    ∃ content, s.file? k = some content ∧ Artifact.parse k content = .error kind := by
  obtain ⟨raw, hread, hkind⟩ := h ▸ tells_readFile s k
  exact ⟨raw, Tree.content?_eq_some.mpr hread, hkind⟩

theorem tracked?_settle_found (h : Sane s) (size : Nat) : (s.settle k (.found a size)).1.tracked? k ≠ none := by
  have hunpinned := h.tracked.unpin k
  simp only [settle, tracked?]
  split
  · next hk =>
    rw [(hunpinned.touch k).2 k]
    rw [hunpinned.contains_eq] at hk
    exact Option.isSome_iff_ne_none.mp hk
  · rw [(hunpinned.insert k size).2 k, if_pos rfl]
    exact Option.some_ne_none size

theorem file?_settle_corrupt (h : Sane s) (kind : Corruption) : (s.settle k (.corrupt kind)).1.file? k = none := by
  simp only [settle, deleteFile_fst, file?]
  exact (content?_removeFile h.refusals _ _).trans (if_pos rfl)

/-- What a lookup read is from before; since then a file that it read was taken away, or it is still there. -/
def Seen (x : Shared) (k : CacheKey) (reading : Reading) : Prop :=
  ∃ earlier read since, x.history = earlier ++ (read, .read k) :: since ∧ reading = (read.readFile k).2 ∧
    ((∃ e ∈ since, e.2.Cuts k) ∨ ∀ content, read.file? k = some content → x.store.file? k = some content)

structure Kept (x : Shared) : Prop where
  sane : Sane x.store
  held : ∀ k content, x.store.file? k = some content → x.store.tracked? k = some content.length
  ready : ∀ phase ∈ x.calls, phase.Ready x.store
  apart : (x.calls.filterMap Phase.placing?).Nodup
  pinned : ∀ k, x.calls.countP (Phase.looksUp k) ≤ (x.store.recency.pins.find? k).getD 0
  seen : ∀ k reading, .settle k reading ∈ x.calls → Seen x k reading
  verdict : ∀ before e after, x.history = before ++ e :: after → Verdict before e
  accurate : (∀ e ∈ x.history, e.2.overtaken e.1 = false) →
    ∀ k, x.store.tracked? k ≠ none → x.store.file? k ≠ none

theorem Consistent.kept (h : Consistent s) : Kept ⟨s, [], []⟩ where
  sane := by
    obtain ⟨m, hm⟩ := h.listed
    exact ⟨h.refusals, h.capacity, m, hm.tracks⟩
  held := by
    intro k content hk
    rw [h.accurate.2 k, hk]
    rfl
  ready := fun _ hp => absurd hp List.not_mem_nil
  apart := List.nodup_nil
  pinned := fun _ => Nat.zero_le _
  seen := fun _ _ hp => absurd hp List.not_mem_nil
  verdict := fun before e after he => absurd he (by simp)
  accurate := by
    intro _ k hk hnone
    rw [h.accurate.2 k, hnone] at hk
    exact hk rfl

theorem Kept.begin {x : Shared} (h : Kept x) (c : Call) : Kept (x.move (.begin c)) where
  sane := h.sane
  held := h.held
  ready := by
    intro phase hp
    rcases List.mem_append.mp hp with hold | hnew
    · exact h.ready phase hold
    · rw [List.mem_singleton.mp hnew]
      cases c <;> trivial
  apart := by
    have hnone : [c.first].filterMap Phase.placing? = [] := by cases c <;> rfl
    rw [Shared.move, List.filterMap_append, hnone, List.append_nil]
    exact h.apart
  pinned := by
    intro k
    have hnone : [c.first].countP (Phase.looksUp k) = 0 := by cases c <;> rfl
    rw [Shared.move, List.countP_append, hnone]
    exact h.pinned k
  seen := by
    intro k reading hp
    rcases List.mem_append.mp hp with hold | hnew
    · exact h.seen k reading hold
    · cases c <;> cases List.mem_singleton.mp hnew
  verdict := h.verdict
  accurate := h.accurate

structure Stepped (x y : Shared) (phase : Phase) (rest : List Phase) : Prop where
  calls : x.calls.Perm (phase :: rest)
  store : y.store = (phase.step x.store).1
  left : y.calls.Perm ((phase.step x.store).2.getRight?.toList ++ rest)
  history : y.history = x.history ++ [(x.store, phase)]

theorem Shared.move_step (x : Shared) (i : Nat) :
    x.move (.step i) = x ∨ ∃ phase rest, Stepped x (x.move (.step i)) phase rest := by
  rw [Shared.move]
  split
  · exact .inl rfl
  · next phase hp =>
    obtain ⟨hi, hphase⟩ := List.getElem?_eq_some_iff.mp hp
    refine .inr ⟨phase, x.calls.take i ++ x.calls.drop (i + 1), ?_, rfl, ?_, rfl⟩
    · have hsplit : x.calls = x.calls.take i ++ phase :: x.calls.drop (i + 1) := by
        rw [← hphase, ← List.drop_eq_getElem_cons hi, List.take_append_drop]
      exact (List.Perm.of_eq hsplit).trans List.perm_middle
    · exact (List.perm_append_comm.append_right _).trans (List.Perm.of_eq (List.append_assoc ..))

namespace Stepped

variable {x y : Shared} {rest : List Phase}

theorem mem (h : Stepped x y phase rest) : phase ∈ x.calls := h.calls.mem_iff.mpr List.mem_cons_self

theorem mem_rest (h : Stepped x y phase rest) {other : Phase} (ho : other ∈ rest) : other ∈ x.calls :=
  h.calls.mem_iff.mpr (List.mem_cons_of_mem phase ho)

/-- What is under way after a phase is what follows on that, or was under way before. -/
theorem mem_left (h : Stepped x y phase rest) {other : Phase} (ho : other ∈ y.calls) :
    phase.step x.store = (y.store, .inr other) ∨ other ∈ rest := by
  rcases List.mem_append.mp (h.left.mem_iff.mp ho) with hnext | hrest
  · rw [Option.mem_toList, Sum.getRight?_eq_some_iff] at hnext
    exact .inl (Prod.ext h.store.symm hnext)
  · exact .inr hrest

theorem effect (h : Stepped x y phase rest) (hx : Kept x) : Effect phase x.store y.store :=
  h.store ▸ Phase.effect hx.sane (hx.ready phase h.mem)

theorem placing_ne (h : Stepped x y phase rest) (hx : Kept x) {other : Phase} (ho : other ∈ rest) {temp : Path}
    (htemp : other.placing? = some temp) : phase.placing? ≠ some temp := by
  intro hsame
  have hapart := (h.calls.filterMap Phase.placing?).nodup_iff.mp hx.apart
  rw [List.filterMap_cons_some hsame] at hapart
  exact (List.nodup_cons.mp hapart).1 (List.mem_filterMap.mpr ⟨other, ho, htemp⟩)

theorem ready (h : Stepped x y phase rest) (hx : Kept x) : ∀ other ∈ y.calls, other.Ready y.store := by
  intro other ho
  rcases h.mem_left ho with hnext | hrest
  · exact Phase.ready_next hnext
  · exact (hx.ready other (h.mem_rest hrest)).step (h.effect hx) fun temp => h.placing_ne hx hrest

theorem apart (h : Stepped x y phase rest) (hx : Kept x) : (y.calls.filterMap Phase.placing?).Nodup := by
  have hapart := (h.calls.filterMap Phase.placing?).nodup_iff.mp hx.apart
  have hrest : (rest.filterMap Phase.placing?).Nodup :=
    hapart.sublist ((List.sublist_cons_self phase rest).filterMap _)
  refine (h.left.filterMap Phase.placing?).nodup_iff.mpr ?_
  cases hnext : (phase.step x.store).2 with
  | inl answer => exact hrest
  | inr next =>
    have hstep : phase.step x.store = (y.store, .inr next) := Prod.ext h.store.symm hnext
    show ((next :: rest).filterMap Phase.placing?).Nodup
    cases hp : next.placing? with
    | none =>
      rw [List.filterMap_cons_none hp]
      exact hrest
    | some temp =>
      rw [List.filterMap_cons_some hp]
      refine List.nodup_cons.mpr ⟨fun hmem => ?_, hrest⟩
      obtain ⟨other, ho, htemp⟩ := List.mem_filterMap.mp hmem
      obtain ⟨a, -, -, hfresh, -⟩ := Phase.placing_next hstep hp
      -- a temporary file that is written already has an older name
      cases other with
      | publish b old =>
        cases htemp
        obtain ⟨-, n, hn, hold⟩ := hx.ready _ (h.mem_rest ho)
        have hpath : tempPath { x.store with nextTemp := n } b.key =
          tempPath { x.store with nextTemp := x.store.nextTemp } a.key := hold.symm.trans hfresh
        exact absurd (tempPath_inj hpath) (Nat.ne_of_lt hn)
      | _ => cases htemp

theorem pinned (h : Stepped x y phase rest) (hx : Kept x) (k : CacheKey) :
    y.calls.countP (Phase.looksUp k) ≤ (y.store.recency.pins.find? k).getD 0 := by
  have hbefore := hx.pinned k
  rw [h.calls.countP_eq, ← List.singleton_append, List.countP_append] at hbefore
  have hnext := phase.pinned_next (s := x.store) k (by omega)
  rw [(h.effect hx).pins, h.left.countP_eq, List.countP_append]
  omega

/-- A key that is looked up is pinned. -/
theorem isPinned (h : Stepped x y phase rest) (hx : Kept x) (hp : .settle k reading ∈ rest) :
    x.store.recency.isPinned k = true := by
  apply Recency.isPinned_of_pos
  exact Nat.lt_of_lt_of_le (List.countP_pos_iff.mpr ⟨_, h.mem_rest hp, decide_eq_true rfl⟩) (hx.pinned k)

theorem seen (h : Stepped x y phase rest) (hx : Kept x) (hp : .settle k reading ∈ y.calls) : Seen y k reading := by
  have hturns := (h.effect hx).turns k
  rcases h.mem_left hp with hnext | hrest
  · obtain ⟨rfl, hreading⟩ := Phase.settle_next hnext
    exact ⟨x.history, x.store, [], h.history, hreading, .inr fun content hf => hturns.file_eq hf nofun⟩
  · obtain ⟨earlier, read, since, hhistory, hreading, hsince⟩ := hx.seen k reading (h.mem_rest hrest)
    refine ⟨earlier, read, since ++ [(x.store, phase)], by rw [h.history, hhistory, List.append_assoc]; rfl,
      hreading, ?_⟩
    by_cases hclears : phase.Clears x.store k
    · have hcuts := hclears.cuts (h.isPinned hx hrest)
      exact .inl ⟨_, List.mem_append_right _ List.mem_cons_self, hcuts⟩
    · exact hsince.imp (fun ⟨e, he, hcuts⟩ => ⟨e, List.mem_append_left _ he, hcuts⟩)
        fun hsame content hf => hturns.file_eq (hsame content hf) hclears

theorem spares (h : Stepped x y phase rest) (hx : Kept x) (hnot : phase.overtaken x.store = false) :
    Spares (x.store, phase) := by
  intro a hsize hf
  have hturns := (h.effect hx).turns a.key
  rw [h.store] at hturns
  by_cases hclears : phase.Clears x.store a.key
  · refine .inr ?_
    cases phase with
    | remove l => exact .inl (congrArg _ hclears)
    | gc live => exact .inr ⟨live, rfl, hclears.1⟩
    | settle l reading =>
      cases reading with
      | corrupt kind =>
        obtain rfl : l = a.key := hclears
        rw [Phase.overtaken, hf, Option.any_some, Artifact.parse_encode hsize, if_pos rfl] at hnot
        cases hnot
      | _ => cases hclears
    | _ => cases hclears
  · exact .inl (hturns.file_eq hf hclears)

/-- A lookup that ends with what is not so any more was raced, and does damage. -/
theorem breaks (h : Stepped x y phase rest) (hx : Kept x) (hover : phase.overtaken x.store = true) :
    ∃ k reading, phase = .settle k reading ∧ Raced x.history k reading ∧
      Breaks k x.store (phase.step x.store).1 := by
  cases phase with
  | settle k reading =>
    obtain ⟨earlier, read, since, hhistory, hreading, hsince⟩ := hx.seen k reading h.mem
    have hraced : (∃ e ∈ since, e.2.Cuts k) → Raced x.history k reading := fun hcuts =>
      ⟨earlier, read, since, hhistory, hreading, hcuts⟩
    refine ⟨k, reading, rfl, ?_⟩
    cases reading with
    | found a size =>
      have hgone : x.store.file? k = none := Option.isNone_iff_eq_none.mp hover
      refine ⟨hsince.elim hraced fun hsame => ?_, hgone, .inl (tracked?_settle_found hx.sane (a := a) size)⟩
      obtain ⟨content, hf⟩ := Option.isSome_iff_exists.mp (file?_of_found hreading.symm)
      cases hgone.symm.trans (hsame content hf)
    | corrupt kind =>
      obtain ⟨content, hf, hdecodes⟩ := (Option.any_eq_true ..).mp hover
      cases hdecode : Artifact.parse k content with
      | error e =>
        rw [hdecode] at hdecodes
        cases hdecodes
      | ok a =>
        refine ⟨hsince.elim hraced fun hsame => ?_, file?_settle_corrupt hx.sane kind, .inr ⟨content, a, hf, hdecode⟩⟩
        obtain ⟨damaged, hdamaged, hkind⟩ := file?_of_corrupt hreading.symm
        cases hf.symm.trans (hsame damaged hdamaged)
        cases hdecode.symm.trans hkind
    | _ => cases hover
  | _ => cases hover

theorem kept (h : Stepped x y phase rest) (hx : Kept x) : Kept y where
  sane := (h.effect hx).sane
  held := fun k => ((h.effect hx).turns k).held (hx.held k)
  ready := h.ready hx
  apart := h.apart hx
  pinned := h.pinned hx
  seen := fun k reading => h.seen hx
  verdict := by
    intro before e after he
    rw [h.history] at he
    rcases List.eq_nil_or_concat after with rfl | ⟨after, last, rfl⟩
    · obtain ⟨rfl, hlast⟩ := List.append_inj' he rfl
      obtain rfl := List.singleton_inj.mp hlast
      exact ⟨h.spares hx, h.breaks hx⟩
    · rw [List.concat_eq_append, ← List.cons_append, ← List.append_assoc] at he
      exact hx.verdict before e after (List.append_inj' he rfl).1
  accurate := by
    intro hnone k
    rw [h.history] at hnone
    refine ((h.effect hx).turns k).accurate (hnone _ (List.mem_append_right _ List.mem_cons_self)) ?_
    exact hx.accurate (fun e he => hnone e (List.mem_append_left _ he)) k

end Stepped

theorem Kept.move {x : Shared} (h : Kept x) (m : Move) : Kept (x.move m) := by
  cases m with
  | begin c => exact h.begin c
  | step i =>
    rcases x.move_step i with hsame | ⟨phase, rest, hstepped⟩
    · rw [hsame]
      exact h
    · exact hstepped.kept h

theorem Kept.run {x : Shared} (h : Kept x) (moves : List Move) : Kept (moves.foldl Shared.move x) := by
  induction moves generalizing x with
  | nil => exact h
  | cons m moves ih => exact ih (h.move m)

/-- However the phases of calls on a store without a limit come between each other, every file is
tracked with its length at all times. No phase takes away the file of an artifact but to remove the
key or to collect what is not live, and nothing is tracked without a file, unless a lookup ends that
read a file which was taken away since. -/
theorem interleavings (h : Consistent s) (moves : List Move) :
    (∀ k content, (Shared.run s moves).store.file? k = some content →
      (Shared.run s moves).store.tracked? k = some content.length) ∧
    (∀ before e after, (Shared.run s moves).history = before ++ e :: after → Verdict before e) ∧
    ((∀ e ∈ (Shared.run s moves).history, e.2.overtaken e.1 = false) → Accurate (Shared.run s moves).store) := by
  have hkept := h.kept.run moves
  refine ⟨hkept.held, hkept.verdict, fun hnone => ⟨?_, fun k => ?_⟩⟩
  · obtain ⟨m, hm⟩ := hkept.sane.tracked
    rw [Shared.run, hm.toList_eq]
    exact Recency.Lists.once hm
  · cases hf : (Shared.run s moves).store.file? k with
    | none =>
      by_contra htracked
      exact hkept.accurate hnone k htracked hf
    | some content => exact hkept.held k content hf

def stocked (content : Bytes) : Store where
  disk := ⟨[
    (["cache"], .directory),
    (artifactsPath ["cache"], .directory),
    (shardPath ["cache"] (sample 1).key, .directory),
    (artifactPath ["cache"] (sample 1).key, .file content)], []⟩
  root := ["cache"]
  capacity := none
  recency := Recency.empty.insert (sample 1).key content.length
  counters := ⟨0, 0, 0, 0, 0⟩
  process := ⟨1, none⟩
  nextTemp := 0

theorem file?_stocked (content : Bytes) (k : CacheKey) :
    (stocked content).file? k = if (sample 1).key = k then some content else none := by
  have hshort : ∀ p : Path, p.length < 4 → p ≠ artifactPath ["cache"] k := fun p hp he => by
    rw [he, length_artifactPath] at hp
    exact Nat.lt_irrefl _ hp
  have hcache := hshort ["cache"] (by decide)
  have hartifacts := hshort (artifactsPath ["cache"]) (by simp)
  have hshard := hshort (shardPath ["cache"] (sample 1).key) (by simp)
  rw [file?, Tree.content?, pathOf, Tree.node?_eq _ (artifactPath_ne_nil _ _)]
  by_cases hk : (sample 1).key = k
  · subst hk
    simp [stocked, hcache, hartifacts, hshard]
  · have hother : artifactPath ["cache"] (sample 1).key ≠ artifactPath ["cache"] k := fun he =>
      hk (artifactPath_inj he)
    simp [stocked, hcache, hartifacts, hshard, hother, hk]

theorem consistent_stocked (content : Bytes) : Consistent (stocked content) := by
  have hlists : (stocked content).recency.Lists [((sample 1).key, content.length)] :=
    Recency.lists_empty.insert (sample 1).key content.length
  refine ⟨rfl, rfl, ⟨_, hlists⟩, ?_, fun k => ?_⟩
  · rw [hlists.toList_eq]
    exact hlists.once
  · rw [file?_stocked, tracked?, hlists.toList_eq, KeyMap.find?_cons]
    split <;> rfl

/-- A lookup, a collection that takes away what is not pinned, and a put of another artifact. -/
def overlapping : List Move := [.begin (.get (sample 1).key), .step 0, .begin (.gc []), .step 1,
  .begin (.put (sample 2).key (sample 2)), .step 1, .step 1, .step 0, .step 1, .step 0, .step 0]

theorem interleavings_overlapping : Consistent (stocked (sample 1).encode) ∧
    Accurate (Shared.run (stocked (sample 1).encode) overlapping).store ∧
    (Shared.run (stocked (sample 1).encode) overlapping).store.tracked? (sample 1).key = some 114 ∧
    (Shared.run (stocked (sample 1).encode) overlapping).store.tracked? (sample 2).key = some 114 := by
  have hnone : ∀ e ∈ (Shared.run (stocked (sample 1).encode) overlapping).history,
      e.2.overtaken e.1 = false := by decide +kernel
  exact ⟨consistent_stocked _, (interleavings (consistent_stocked _) overlapping).2.2 hnone, by decide +kernel,
    by decide +kernel⟩

/-- Between the read of a lookup and its end, the key is removed. -/
def removing : List Move := [.begin (.get (sample 1).key), .step 0, .step 0, .begin (.remove (sample 1).key),
  .step 1, .step 0]

/-- Two lookups read the same damaged file. After the first has deleted it, the artifact is put again
before the second ends. -/
def replacing : List Move := [.begin (.get (sample 1).key), .begin (.get (sample 1).key), .step 0, .step 1,
  .step 0, .step 1, .step 0, .begin (.put (sample 1).key (sample 1)), .step 1, .step 1, .step 1, .step 1, .step 0]

/-- When these calls are over, a key is tracked without a file, and a file that was just stored is gone. -/
theorem interleavings_overtaken :
    (Consistent (stocked (sample 1).encode) ∧ (Shared.run (stocked (sample 1).encode) removing).calls = [] ∧
      ¬ Accurate (Shared.run (stocked (sample 1).encode) removing).store) ∧
    Consistent (stocked [1]) ∧ (Shared.run (stocked [1]) replacing).calls = [] ∧
      ∃ e ∈ (Shared.run (stocked [1]) replacing).history, (∃ k kind, e.2 = .settle k (.corrupt kind)) ∧
        ¬ Spares e := by
  refine ⟨⟨consistent_stocked _, by decide +kernel, fun haccurate => ?_⟩, consistent_stocked _, by decide +kernel, ?_⟩
  · have hends : (Shared.run (stocked (sample 1).encode) removing).store.tracked? (sample 1).key = some 114 ∧
        (Shared.run (stocked (sample 1).encode) removing).store.file? (sample 1).key = none := by decide +kernel
    have htracked := haccurate.2 (sample 1).key
    rw [hends.1, hends.2] at htracked
    cases htracked
  · have hany : ∃ e ∈ (Shared.run (stocked [1]) replacing).history, e.2.overtaken e.1 = true ∧
        e.2.looksUp (sample 1).key = true ∧ e.1.file? (sample 1).key = some (sample 1).encode ∧
        (e.2.step e.1).1.file? (sample 1).key = none := by
      decide +kernel
    obtain ⟨⟨s, phase⟩, he, hover, hkey, hf, hgone⟩ := hany
    refine ⟨_, he, ?_, fun hspares => ?_⟩
    · cases phase with
      | settle k reading =>
        cases reading with
        | corrupt kind => exact ⟨k, kind, rfl⟩
        | found a size =>
          obtain rfl : k = (sample 1).key := of_decide_eq_true hkey
          rw [Phase.overtaken, hf] at hover
          cases hover
        | _ => cases hover
      | _ => cases hover
    · rcases hspares (sample 1) (by decide) hf with hkept | hremoved | ⟨live, hcollected, -⟩
      · cases hgone.symm.trans hkept
      · cases hremoved
        cases hover
      · cases hcollected
        cases hover

end BuildCache.Store
