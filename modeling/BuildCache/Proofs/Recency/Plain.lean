import Mathlib.Data.Multiset.AddSub
import BuildCache.Proofs.Recency.Checked

/-! # Recency as a plain list with a multiset of pins -/
namespace BuildCache.Recency

open KeyMap (Once weight)

/-- Entries with their sizes, least recently used first, and a pin for each time that a key was pinned. -/
structure Plain where
  entries : KeyMap Nat
  pins : Multiset CacheKey

namespace Plain

def empty : Plain := ⟨[], 0⟩

def insert (p : Plain) (k : CacheKey) (size : Nat) : Plain := { p with entries := p.entries.erase k ++ [(k, size)] }

def touch (p : Plain) (k : CacheKey) : Plain :=
  match p.entries.find? k with
  | none => p
  | some size => p.insert k size

def remove (p : Plain) (k : CacheKey) : Plain := { p with entries := p.entries.erase k }

def pin (p : Plain) (k : CacheKey) : Plain := { p with pins := k ::ₘ p.pins }

def unpin (p : Plain) (k : CacheKey) : Plain := { p with pins := p.pins.erase k }

/-- The least recently used entry that is not pinned. -/
def oldest? (p : Plain) : Option (CacheKey × Nat) := List.find? (fun e => decide (e.1 ∉ p.pins)) p.entries

theorem length_remove_lt {p : Plain} {e : CacheKey × Nat} (h : p.oldest? = some e) :
    (p.remove e.1).entries.length < p.entries.length := by
  refine List.length_filter_lt_length_iff_exists.mpr ⟨e, List.mem_of_find?_eq_some h, ?_⟩
  simp

/-- Removes the least recently used entry that is not pinned, again and again, until the sizes fit a
capacity or all entries are pinned. -/
def evictOver (p : Plain) (capacity : Nat) : Plain × List CacheKey :=
  if p.entries.weight id ≤ capacity then (p, [])
  else
    match _h : p.oldest? with
    | none => (p, [])
    | some e => (((p.remove e.1).evictOver capacity).1, e.1 :: ((p.remove e.1).evictOver capacity).2)
termination_by p.entries.length
decreasing_by all_goals exact length_remove_lt _h

end Plain

def Op.onPlain (p : Plain) : Op → Plain × Answer
  | insert k size => (p.insert k size, .done)
  | touch k => (p.touch k, .found (p.entries.find? k).isSome)
  | remove k => (p.remove k, .removed (p.entries.find? k))
  | pin k => (p.pin k, .done)
  | unpin k => (p.unpin k, .done)
  | evictOver capacity => (p.evictOver capacity).map id .evicted

variable {r : Recency} {p : Plain} {pins : Multiset CacheKey} {capacity : Nat}

theorem Plain.evictOver_of_le (h : p.entries.weight id ≤ capacity) : p.evictOver capacity = (p, []) := by
  rw [evictOver, if_pos h]

theorem Plain.evictOver_of_none (h : p.oldest? = none) : p.evictOver capacity = (p, []) := by
  rw [evictOver]
  split
  · rfl
  · split
    · rfl
    · next e he =>
      rw [h] at he
      cases he

theorem Plain.evictOver_of_some {e : CacheKey × Nat} (hover : ¬p.entries.weight id ≤ capacity)
    (h : p.oldest? = some e) : p.evictOver capacity =
      (((p.remove e.1).evictOver capacity).1, e.1 :: ((p.remove e.1).evictOver capacity).2) := by
  rw [evictOver, if_neg hover]
  split
  · next he =>
    rw [h] at he
    cases he
  · next e' he =>
    rw [h] at he
    cases he
    rfl

/-- Once the pinned entries at the front are passed, what one pass over the rest takes is what is removed
one after another. -/
theorem evictOver_eq_victims (hpins : ∀ k, r.isPinned k = decide (k ∈ pins)) (before rest : KeyMap Nat)
    (honce : Once (before ++ rest)) (hbefore : ∀ e ∈ before, e.1 ∈ pins) (hsize : ∀ e ∈ rest, r.sizeOf e.1 = e.2)
    {gone : List CacheKey} (hgone : r.victims (weight id (before ++ rest) - capacity) (rest.map (·.1)) = gone) :
    Plain.evictOver ⟨before ++ rest, pins⟩ capacity
      = (⟨(before ++ rest).filter fun e => !gone.contains e.1, pins⟩, gone) := by
  induction rest generalizing before gone with
  | nil =>
    obtain rfl : [] = gone := hgone
    have hnone : Plain.oldest? ⟨before ++ [], pins⟩ = none := by
      rw [Plain.oldest?, List.append_nil, List.find?_eq_none]
      intro e he
      simpa using hbefore e he
    rw [Plain.evictOver_of_none hnone]
    simp
  | cons e rest ih =>
    obtain ⟨he, hrest⟩ := List.forall_mem_cons.mp hsize
    rw [List.map_cons, victims] at hgone
    by_cases hle : weight id (before ++ e :: rest) ≤ capacity
    · rw [if_pos (Nat.sub_eq_zero_of_le hle)] at hgone
      subst hgone
      rw [Plain.evictOver_of_le hle]
      simp
    · rw [if_neg (by omega), hpins] at hgone
      by_cases hpinned : e.1 ∈ pins
      · have hshift : before ++ e :: rest = (before ++ [e]) ++ rest := by simp
        rw [if_pos (decide_eq_true hpinned)] at hgone
        rw [hshift] at honce hgone ⊢
        refine ih _ honce (fun e' he' => ?_) hrest hgone
        rcases List.mem_append.mp he' with he' | he'
        · exact hbefore e' he'
        · exact List.mem_singleton.mp he' ▸ hpinned
      · have hweight : weight id (before ++ e :: rest) = e.2 + weight id (before ++ rest) := by
          rw [KeyMap.weight_append, KeyMap.weight_append, KeyMap.weight_cons, id]
          omega
        have hnone : KeyMap.find? (before ++ rest) e.1 = none :=
          (Once.cons_iff.mp (honce.perm List.perm_middle.symm)).1
        have herase : KeyMap.erase (before ++ e :: rest) e.1 = before ++ rest :=
          calc KeyMap.erase (before ++ e :: rest) e.1 = KeyMap.erase (before ++ rest) e.1 := by simp [KeyMap.erase]
            _ = before ++ rest := KeyMap.erase_eq_self hnone
        have holdest : Plain.oldest? ⟨before ++ e :: rest, pins⟩ = some e := by
          rw [Plain.oldest?, List.find?_append, List.find?_eq_none.mpr fun e' he' => by simpa using hbefore e' he',
            Option.none_or, List.find?_cons_of_pos (by simpa using hpinned)]
        have hexcess : weight id (before ++ e :: rest) - capacity - r.sizeOf e.1
            = weight id (before ++ rest) - capacity := by
          rw [he, hweight]
          omega
        rw [if_neg (by simpa using hpinned), hexcess] at hgone
        subst hgone
        have hremoved := ih before (herase ▸ honce.erase e.1) hbefore hrest rfl
        rw [Plain.evictOver_of_some hle holdest, Plain.remove, herase, hremoved, ← KeyMap.foldl_erase,
          ← KeyMap.foldl_erase, List.foldl_cons, herase]

/-- The entries are those of a plain list, and as many pins are counted as it has. -/
structure Follows (r : Recency) (p : Plain) : Prop where
  tracks : r.Tracks p.entries
  counts : ∀ k, (r.pins.find? k).getD 0 = p.pins.count k
  pinned : ∀ e ∈ r.pins, 1 ≤ e.2

namespace Follows

theorem empty : Follows .empty .empty where
  tracks := lists_empty.tracks
  counts _ := (Multiset.count_zero _).symm
  pinned := nofun

theorem isPinned_eq (h : r.Follows p) (k : CacheKey) : r.isPinned k = decide (k ∈ p.pins) := by
  rw [isPinned, KeyMap.contains, Bool.eq_iff_iff, decide_eq_true_iff, ← Multiset.one_le_count_iff_mem, ← h.counts]
  cases hk : r.pins.find? k with
  | none => simp
  | some n => simpa using h.pinned _ (KeyMap.mem_of_find? hk)

theorem of_pins_eq {s : Recency} {entries : KeyMap Nat} (h : r.Follows p) (hpins : s.pins = r.pins)
    (htracks : s.Tracks entries) : s.Follows { p with entries } where
  tracks := htracks
  counts := hpins ▸ h.counts
  pinned := hpins ▸ h.pinned

theorem insert (h : r.Follows p) (k : CacheKey) (size : Nat) : (r.insert k size).Follows (p.insert k size) :=
  h.of_pins_eq (pins_insert r k size) (h.tracks.insert k size)

theorem touch (h : r.Follows p) (k : CacheKey) : (r.touch k).Follows (p.touch k) := by
  rw [Plain.touch]
  split
  · next hk =>
    rw [h.tracks.touch_of_none hk]
    exact h
  · next size hk => exact h.of_pins_eq (pins_touch r k) (h.tracks.touch_of_some hk)

theorem remove (h : r.Follows p) (k : CacheKey) : (r.erase k).Follows (p.remove k) :=
  h.of_pins_eq (pins_erase r k) (h.tracks.erase k)

theorem pin (h : r.Follows p) (k : CacheKey) : (r.pin k).Follows (p.pin k) where
  tracks := h.tracks
  counts l := by
    rw [find?_pins_pin, h.counts, Plain.pin, Multiset.count_cons]
    simp only [eq_comm]
  pinned := by
    rw [Recency.pin, KeyMap.insert, List.forall_mem_cons]
    exact ⟨Nat.le_add_left _ _, fun e he => h.pinned e (List.mem_filter.mp he).1⟩

theorem unpin (h : r.Follows p) (k : CacheKey) : (r.unpin k).Follows (p.unpin k) where
  tracks := h.tracks.unpin k
  counts l := by
    rw [find?_pins_unpin, h.counts, Plain.unpin]
    split
    · next hl => rw [hl, Multiset.count_erase_self]
    · next hl => rw [Multiset.count_erase_of_ne (Ne.symm hl), Nat.sub_zero]
  pinned := by
    have hothers : ∀ e ∈ r.pins.erase k, 1 ≤ e.2 := fun e he => h.pinned e (List.mem_filter.mp he).1
    rw [Recency.unpin]
    split
    · exact h.pinned
    · split
      · exact hothers
      · next n _ hn =>
        rw [KeyMap.insert, List.forall_mem_cons]
        exact ⟨Nat.one_le_iff_ne_zero.mpr hn, hothers⟩

theorem evictOver (h : r.Follows p) (capacity : Nat) :
    (r.evictOver capacity).2 = (p.evictOver capacity).2 ∧
      (r.evictOver capacity).1.Follows (p.evictOver capacity).1 := by
  have htotal := h.tracks.totalBytes_eq
  simp only [Recency.evictOver]
  split
  · next hle =>
    rw [Plain.evictOver_of_le (htotal ▸ hle)]
    exact ⟨rfl, h⟩
  · rw [h.tracks.keys_order, htotal]
    have hvictims : p.evictOver capacity = _ := evictOver_eq_victims h.isPinned_eq [] p.entries h.tracks.once
      (List.forall_mem_nil _) (fun _ he => h.tracks.sizeOf_eq he) rfl
    rw [hvictims]
    exact ⟨rfl, h.of_pins_eq (r.pins_eraseAll _) (h.tracks.eraseAll _)⟩

/-- An operation has the same answer, and leaves what follows the plain list again. -/
theorem step (h : r.Follows p) (op : Op) :
    (op.onRecency r).2 = (op.onPlain p).2 ∧ (op.onRecency r).1.Follows (op.onPlain p).1 := by
  cases op with
  | insert k size => exact ⟨rfl, h.insert k size⟩
  | touch k => exact ⟨congrArg _ (h.tracks.contains_eq k), h.touch k⟩
  | remove k => exact ⟨congrArg _ (h.tracks.find?_uses k), h.remove k⟩
  | pin k => exact ⟨rfl, h.pin k⟩
  | unpin k => exact ⟨rfl, h.unpin k⟩
  | evictOver capacity =>
    obtain ⟨hgone, hleft⟩ := h.evictOver capacity
    exact ⟨congrArg _ hgone, hleft⟩

end Follows

/-- What can be seen of a recency is what the plain list has. -/
structure Looks (r : Recency) (p : Plain) : Prop where
  listed : Checked.toList r = some p.entries
  toList : r.toList = p.entries
  size : r.size = p.entries.length
  totalBytes : r.totalBytes = weight id p.entries
  contains : ∀ k, r.contains k = (p.entries.find? k).isSome
  isPinned : ∀ k, r.isPinned k = decide (k ∈ p.pins)

theorem Follows.looks (h : r.Follows p) : r.Looks p where
  listed := by rw [(h.tracks.linked h.pinned).toList_eq, h.tracks.toList_eq]
  toList := h.tracks.toList_eq
  size := h.tracks.size_eq
  totalBytes := h.tracks.totalBytes_eq
  contains := h.tracks.contains_eq
  isPinned := h.isPinned_eq

theorem Follows.run {ops : List Op} (h : r.Follows p) (hroom : r.Room ops) :
    ∃ s q answers, Op.runChecked r ops = some (s, answers) ∧ Op.run Op.onRecency r ops = (s, answers) ∧
      Op.run Op.onPlain p ops = (q, answers) ∧ s.Follows q := by
  induction ops generalizing r p with
  | nil => exact ⟨r, p, [], rfl, rfl, rfl, h⟩
  | cons op ops ih =>
    obtain ⟨hanswer, hstep⟩ := h.step op
    obtain ⟨s, q, answers, hchecked, hrun, hplain, hlast⟩ := ih hstep hroom.step
    refine ⟨s, q, (op.onRecency r).2 :: answers, ?_, ?_, ?_, hlast⟩
    · simp only [Op.runChecked, hroom.onChecked_eq h.tracks h.pinned, Option.bind_eq_bind, Option.bind_some, hchecked]
    · rw [Op.run, hrun]
    · rw [Op.run, hplain, hanswer]

/-- Whatever is inserted, used, removed, pinned, unpinned and evicted, as long as the sizes in sum and
the number of operations have 64 bits: no number leaves its range and no entry is missing, the maps fit
together, and what is answered and seen is what a plain list with a multiset of pins answers and has. -/
theorem runs_as_list (ops : List Op) (hsizes : (ops.map Op.size).sum < limit) (hlength : ops.length < limit) :
    ∃ r p answers, Op.runChecked .empty ops = some (r, answers) ∧ Op.run Op.onRecency .empty ops = (r, answers) ∧
      Op.run Op.onPlain .empty ops = (p, answers) ∧ r.Linked ∧ r.Looks p := by
  have hroom : Room .empty ops := by
    refine ⟨?_, ?_, fun k => ?_⟩
    · rwa [empty, Nat.zero_add]
    · rwa [empty, Nat.zero_add]
    · rwa [empty, KeyMap.find?, List.find?_nil, Option.map_none, Option.getD_none, Nat.zero_add]
  obtain ⟨r, p, answers, hchecked, hrun, hplain, h⟩ := Follows.empty.run hroom
  exact ⟨r, p, answers, hchecked, hrun, hplain, h.tracks.linked h.pinned, h.looks⟩

def ageKey (n : UInt8) : CacheKey := ⟨⟨n :: List.replicate 31 0, rfl⟩⟩

/-- The largest sizes that fit together, a key that is pinned twice and unpinned once too often, and an
eviction that passes it. -/
def tight : List Op := [
  .insert (ageKey 1) 0xffffffffffffff00, .insert (ageKey 2) 0xff, .touch (ageKey 1), .pin (ageKey 2),
  .pin (ageKey 2), .unpin (ageKey 2), .evictOver 0xff, .unpin (ageKey 2), .unpin (ageKey 2), .touch (ageKey 3),
  .evictOver 0, .remove (ageKey 2)]

theorem runs_as_list_tight : ∃ r, Op.runChecked .empty tight = some (r,
      [.done, .done, .found true, .done, .done, .done, .evicted [ageKey 1], .done, .done, .found false,
        .evicted [ageKey 2], .removed none]) ∧ r.Linked := by
  obtain ⟨r, p, answers, hchecked, hrun, -, hlinked, -⟩ := runs_as_list tight (by decide) (by decide)
  have hanswers : (Op.run Op.onRecency .empty tight).2 = [.done, .done, .found true, .done, .done, .done,
      .evicted [ageKey 1], .done, .done, .found false, .evicted [ageKey 2], .removed none] := by decide +kernel
  rw [hrun] at hanswers
  exact ⟨r, hanswers ▸ hchecked, hlinked⟩

theorem Follows.of_runChecked {ops : List Op} {s : Recency} {answers : List Answer} (h : r.Follows p)
    (hrun : Op.runChecked r ops = some (s, answers)) : ∃ q, s.Follows q := by
  induction ops generalizing r p answers with
  | nil =>
    cases hrun
    exact ⟨p, h⟩
  | cons op ops ih =>
    obtain ⟨⟨t, answer⟩, ht, hrest⟩ := Option.bind_eq_some_iff.mp hrun
    obtain ⟨⟨s', answers'⟩, hs, he⟩ := Option.bind_eq_some_iff.mp hrest
    cases he
    have hstep := (h.step op).2
    rw [h.tracks.of_onChecked h.pinned ht] at hstep
    exact ih hstep hs

/-- Whatever was inserted, used, removed, pinned and evicted, as long as no number left 64 bits: eviction drops
the oldest unpinned entries, as few as bring the total down to the capacity, and leaves the others as they
are. -/
theorem evicts_oldest {ops : List Op} {answers : List Answer} (h : Op.runChecked .empty ops = some (r, answers))
    (capacity : Nat) :
    ∃ left gone, Checked.evictOver r capacity = some (left, gone) ∧ r.Evicts capacity left gone := by
  obtain ⟨p, hp⟩ := Follows.empty.of_runChecked h
  exact ⟨_, _, hp.tracks.evictOver_eq hp.pinned capacity, hp.tracks.evictOver_evicts capacity⟩

/-- The oldest of three entries is pinned, and the next one has no bytes. -/
def aging : List Op := [.insert (ageKey 1) 10, .insert (ageKey 2) 0, .insert (ageKey 3) 20, .pin (ageKey 1)]

theorem evicts_oldest_pinned : ∃ aged left, Op.runChecked .empty aging = some (aged, [.done, .done, .done, .done]) ∧
    Checked.evictOver aged 15 = some (left, [ageKey 2, ageKey 3]) ∧ left.toList = [(ageKey 1, 10)] ∧
    aged.Evicts 15 left [ageKey 2, ageKey 3] := by
  have hrun : (Op.runChecked .empty aging).any (fun s => s.2 = [.done, .done, .done, .done] ∧
      (Checked.evictOver s.1 15).any fun t => t.2 = [ageKey 2, ageKey 3] ∧ t.1.toList = [(ageKey 1, 10)]) = true := by
    decide +kernel
  obtain ⟨⟨aged, answers⟩, haged, hanswers⟩ := (Option.any_eq_true _ _).mp hrun
  obtain ⟨rfl, hleft⟩ := of_decide_eq_true hanswers
  obtain ⟨left, gone, hevict, hevicts⟩ := evicts_oldest haged 15
  rw [hevict] at hleft
  obtain ⟨rfl, hlist⟩ := of_decide_eq_true hleft
  exact ⟨aged, left, haged, hevict, hlist, hevicts⟩

/-! Without checks numbers are reduced to 64 bits. -/
namespace Wrapping

def erase (r : Recency) (k : CacheKey) : Recency :=
  { r.erase k with totalBytes := (r.totalBytes + limit - r.sizeOf k) % limit }

def insert (r : Recency) (k : CacheKey) (size : Nat) : Recency :=
  { r.insert k size with totalBytes := ((erase r k).totalBytes + size) % limit }

def evictOver (r : Recency) (capacity : Nat) : Recency × List CacheKey :=
  if r.totalBytes ≤ capacity then (r, [])
  else
    let gone := r.victims (r.totalBytes - capacity) (r.order.map (·.2))
    (gone.foldl erase r, gone)

/-- Of sizes that are too large in sum a total is kept that is too small, and then one that is too large. -/
def overfull : Recency := insert (insert (insert .empty (ageKey 1) 0xffffffffffffffff) (ageKey 2) 5) (ageKey 3) 3

end Wrapping

/-- A second entry that takes the total out of 64 bits is not inserted, or else eviction ends above the
capacity, with entries that are not pinned. -/
theorem eviction_overflows :
    Op.runChecked .empty [.insert (ageKey 1) 0xffffffffffffffff, .insert (ageKey 2) 5] = none ∧
    (Wrapping.evictOver Wrapping.overfull 6).2 = [ageKey 1] ∧
    (Wrapping.evictOver Wrapping.overfull 6).1.totalBytes = 8 ∧
    (Wrapping.evictOver Wrapping.overfull 6).1.toList = [(ageKey 2, 5), (ageKey 3, 3)] ∧
    (Wrapping.evictOver Wrapping.overfull 6).1.pins = [] := by
  decide +kernel

end BuildCache.Recency
