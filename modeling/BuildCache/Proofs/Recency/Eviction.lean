import BuildCache.Proofs.Recency

/-! # Eviction: the oldest unpinned entries go, no more than are needed, and all others stay as they are -/
namespace BuildCache.Recency

open KeyMap (Once weight)

variable {r : Recency} {m : KeyMap Nat} {k l : CacheKey} {keys : List CacheKey} {excess capacity : Nat}

/-- Those of some keys that are not pinned, in their order. -/
def unpinned (r : Recency) (keys : List CacheKey) : List CacheKey := keys.filter fun k => !r.isPinned k

def sizes (r : Recency) (keys : List CacheKey) : Nat := (keys.map r.sizeOf).sum

theorem sizes_cons (r : Recency) (k : CacheKey) (keys : List CacheKey) :
    r.sizes (k :: keys) = r.sizeOf k + r.sizes keys := List.sum_cons

theorem sizes_append (r : Recency) (keys keys' : List CacheKey) :
    r.sizes (keys ++ keys') = r.sizes keys + r.sizes keys' := by
  rw [sizes, List.map_append, List.sum_append]
  rfl

theorem unpinned_cons (r : Recency) (k : CacheKey) (keys : List CacheKey) :
    r.unpinned (k :: keys) = if r.isPinned k then r.unpinned keys else k :: r.unpinned keys := by
  cases hk : r.isPinned k <;> simp [unpinned, hk]

theorem victims_front (r : Recency) (excess : Nat) (keys : List CacheKey) :
    r.victims excess keys <+: r.unpinned keys := by
  induction keys generalizing excess with
  | nil => exact List.prefix_refl _
  | cons k keys ih =>
    rw [victims, unpinned_cons]
    split
    · exact List.nil_prefix
    · split
      · exact ih excess
      · exact List.cons_prefix_cons.mpr ⟨rfl, ih _⟩

theorem victims_enough (r : Recency) (excess : Nat) (keys : List CacheKey) :
    excess ≤ r.sizes (r.victims excess keys) ∨ r.victims excess keys = r.unpinned keys := by
  induction keys generalizing excess with
  | nil => exact .inr rfl
  | cons k keys ih =>
    rw [victims, unpinned_cons]
    split
    · next hzero => exact .inl (hzero ▸ Nat.zero_le _)
    · split
      · exact ih excess
      · refine (ih (excess - r.sizeOf k)).imp (fun hle => ?_) (congrArg _)
        rw [sizes_cons]
        omega

theorem victims_least {before : List CacheKey} {last : CacheKey} (h : r.victims excess keys = before ++ [last]) :
    r.sizes before < excess := by
  induction keys generalizing excess before with
  | nil => exact absurd h (by simp [victims])
  | cons k keys ih =>
    rw [victims] at h
    split at h
    · exact absurd h (by simp)
    · next hexcess =>
      split at h
      · exact ih h
      · cases before with
        | nil => exact Nat.pos_of_ne_zero hexcess
        | cons first before =>
          obtain ⟨rfl, hrest⟩ := List.cons.inj h
          have := ih hrest
          rw [sizes_cons]
          omega

theorem sizeOf_erase (r : Recency) (hl : k ≠ l) : (r.erase k).sizeOf l = r.sizeOf l := by
  simp only [Recency.erase]
  split
  · rfl
  · rw [sizeOf, KeyMap.find?_erase, if_neg hl, sizeOf]

namespace Tracks

theorem once (h : r.Tracks m) : m.Once := Lists.once h

theorem totalBytes_eq (h : r.Tracks m) : r.totalBytes = weight id m :=
  Lists.totalBytes_eq (r := { r with pins := [] }) h

theorem size_eq (h : r.Tracks m) : r.size = m.length := Lists.size_eq (r := { r with pins := [] }) h

theorem sizeOf_eq (h : r.Tracks m) {e : CacheKey × Nat} (he : e ∈ m) : r.sizeOf e.1 = e.2 :=
  Lists.sizeOf_eq h he

theorem keys_order (h : r.Tracks m) : r.order.map (·.2) = m.map (·.1) :=
  Lists.keys_order (r := { r with pins := [] }) h

theorem eraseAll (h : r.Tracks m) (keys : List CacheKey) :
    (r.eraseAll keys).Tracks (m.filter fun e => !keys.contains e.1) := by
  rw [← KeyMap.foldl_erase]
  induction keys generalizing r m with
  | nil => exact h
  | cons k keys ih => exact ih (h.erase k)

theorem totalBytes_eraseAll (h : r.Tracks m) (hn : keys.Nodup) (hk : ∀ k ∈ keys, k ∈ m.map (·.1)) :
    (r.eraseAll keys).totalBytes + r.sizes keys = r.totalBytes := by
  induction keys generalizing r m with
  | nil => rfl
  | cons k keys ih =>
    obtain ⟨hnot, hrest⟩ := List.nodup_cons.mp hn
    obtain ⟨e, he, rfl⟩ := List.mem_map.mp (hk k List.mem_cons_self)
    have hfind := h.once.find?_eq_some.mpr he
    have hsame : r.sizes keys = (r.erase e.1).sizes keys := by
      refine congrArg List.sum (List.map_congr_left fun l hl => (sizeOf_erase r fun he => ?_).symm)
      exact hnot (he ▸ hl)
    have hknown : ∀ l ∈ keys, l ∈ (m.erase e.1).map (·.1) := fun l hl => by
      obtain ⟨e', he', rfl⟩ := List.mem_map.mp (hk l (List.mem_cons_of_mem _ hl))
      refine List.mem_map_of_mem (List.mem_filter.mpr ⟨he', decide_eq_true fun he => ?_⟩)
      exact hnot (he ▸ hl)
    have herase : (r.erase e.1).totalBytes + r.sizeOf e.1 = r.totalBytes := by
      rw [(h.erase e.1).totalBytes_eq, h.totalBytes_eq, h.sizeOf_eq he, h.once.weight_erase hfind id,
        Nat.add_comm]
      rfl
    calc ((r.erase e.1).eraseAll keys).totalBytes + r.sizes (e.1 :: keys)
        = ((r.erase e.1).eraseAll keys).totalBytes + (r.erase e.1).sizes keys + r.sizeOf e.1 := by
          rw [sizes_cons, hsame]
          omega
      _ = (r.erase e.1).totalBytes + r.sizeOf e.1 := by rw [ih (h.erase e.1) hrest hknown]
      _ = r.totalBytes := herase

end Tracks

theorem pins_eraseAll (r : Recency) (keys : List CacheKey) : (r.eraseAll keys).pins = r.pins := by
  induction keys generalizing r with
  | nil => rfl
  | cons k keys ih => exact (ih (r.erase k)).trans (pins_erase r k)

/-- What comes of an empty recency by its operations, whatever the sizes. -/
inductive Reached : Recency → Prop
  | empty : Reached .empty
  | insert {r : Recency} (h : Reached r) (k : CacheKey) (size : Nat) : Reached (r.insert k size)
  | touch {r : Recency} (h : Reached r) (k : CacheKey) : Reached (r.touch k)
  | erase {r : Recency} (h : Reached r) (k : CacheKey) : Reached (r.erase k)
  | pin {r : Recency} (h : Reached r) (k : CacheKey) : Reached (r.pin k)
  | unpin {r : Recency} (h : Reached r) (k : CacheKey) : Reached (r.unpin k)
  | evictOver {r : Recency} (h : Reached r) (capacity : Nat) : Reached (r.evictOver capacity).1

theorem Tracked.evictOver (h : r.Tracked) (capacity : Nat) : (r.evictOver capacity).1.Tracked := by
  obtain ⟨m, hm⟩ := h
  simp only [Recency.evictOver]
  split
  · exact ⟨m, hm⟩
  · exact ⟨_, hm.eraseAll _⟩

theorem Reached.tracked (h : r.Reached) : r.Tracked := by
  induction h with
  | empty => exact ⟨[], lists_empty.tracks⟩
  | insert _ k size ih => exact (ih.insert k size).1
  | touch _ k ih => exact (ih.touch k).1
  | erase _ k ih => exact (ih.erase k).1
  | pin _ k ih => exact ih.pin k
  | unpin _ k ih => exact ih.unpin k
  | evictOver _ capacity ih => exact ih.evictOver capacity

/-- What an eviction down to a capacity leaves, with the keys that it returns. -/
structure Evicts (r : Recency) (capacity : Nat) (left : Recency) (gone : List CacheKey) : Prop where
  /-- The victims are the oldest of the unpinned entries, in their order. -/
  oldest : gone <+: r.unpinned (r.toList.map (·.1))
  /-- No pinned entry goes. -/
  spares : ∀ e ∈ r.toList, r.isPinned e.1 = true → e ∈ left.toList
  /-- If there is room for all entries, none goes. -/
  roomy : r.totalBytes ≤ capacity → left = r ∧ gone = []
  /-- Else there is room afterwards, as there would not be with the last victim, or all that is left is
  pinned. -/
  enough : capacity < r.totalBytes → (left.totalBytes ≤ capacity ∧
      ∃ before last, gone = before ++ [last] ∧ capacity < left.totalBytes + r.sizeOf last) ∨
    ∀ e ∈ left.toList, left.isPinned e.1 = true
  /-- The entries that are left keep their sizes and their order. -/
  rest : left.toList = r.toList.filter fun e => !gone.contains e.1
  pins : left.pins = r.pins
  /-- The total goes down by the sizes of the victims. -/
  total : left.totalBytes + r.sizes gone = r.totalBytes
  /-- Without pins, the entry used last stays if there is room for it alone. -/
  newest : (∀ k, r.isPinned k = false) → ∀ k size, r.toList.getLast? = some (k, size) → size ≤ capacity →
    k ∉ gone

theorem Evicts.of_le (hle : r.totalBytes ≤ capacity) : r.Evicts capacity r [] where
  oldest := List.nil_prefix
  spares := fun _ he _ => he
  roomy := fun _ => ⟨rfl, rfl⟩
  enough := fun hover => absurd hle (Nat.not_le_of_lt hover)
  rest := (List.filter_eq_self.mpr fun _ _ => rfl).symm
  pins := rfl
  total := rfl
  newest := fun _ _ _ _ _ => List.not_mem_nil

/-- The entry used last is only the last victim, and then nothing else is left. -/
private theorem Tracks.newest (h : r.Tracks m) {gone : List CacheKey} (hfront : gone <+: r.unpinned (m.map (·.1)))
    (hleast : ∀ before last, gone = before ++ [last] → capacity < (r.eraseAll gone).totalBytes + r.sizeOf last)
    (hfree : ∀ k, r.isPinned k = false) {k : CacheKey} {size : Nat} (hlast : m.getLast? = some (k, size))
    (hsize : size ≤ capacity) : k ∉ gone := by
  intro hk
  obtain ⟨before, rfl⟩ := List.getLast?_eq_some_iff.mp hlast
  have hunpinned : r.unpinned ((before ++ [(k, size)]).map (·.1)) = before.map (·.1) ++ [k] := by
    rw [List.map_append, unpinned, List.filter_eq_self.mpr fun l _ => by rw [hfree l]; rfl]
    rfl
  have hfresh : k ∉ before.map (·.1) := by
    have honce := h.once
    rw [Once, List.map_append] at honce
    exact fun hmem => (List.nodup_append.mp honce).2.2 k hmem k List.mem_cons_self rfl
  rw [hunpinned] at hfront
  rcases List.prefix_concat_iff.mp hfront with hall | hbefore
  · have hlt := hleast _ _ hall
    rw [h.sizeOf_eq (e := (k, size)) (List.mem_append_right _ List.mem_cons_self)] at hlt
    have hnone : (r.eraseAll gone).totalBytes = 0 := by
      rw [(h.eraseAll gone).totalBytes_eq, List.filter_eq_nil_iff.mpr fun e he => ?_]
      · rfl
      · have hmem : e.1 ∈ (before ++ [(k, size)]).map (·.1) := List.mem_map_of_mem he
        rw [List.map_append, List.map_singleton, ← hall] at hmem
        simpa using hmem
    omega
  · exact hfresh (hbefore.subset hk)

/-- The oldest unpinned entries are dropped if they cover the excess, and no fewer of them do. -/
theorem Tracks.evicts (h : r.Tracks m) (hover : capacity < r.totalBytes) {gone : List CacheKey}
    (hgone : r.victims (r.totalBytes - capacity) (m.map (·.1)) = gone) :
    r.Evicts capacity (r.eraseAll gone) gone := by
  have hfront : gone <+: r.unpinned (m.map (·.1)) := hgone ▸ r.victims_front _ _
  have hkeys : ∀ k ∈ gone, k ∈ m.map (·.1) ∧ r.isPinned k = false := fun k hk => by
    have := List.mem_filter.mp (hfront.subset hk)
    simpa using this
  have hnodup : gone.Nodup := (List.Nodup.filter _ h.once).sublist hfront.sublist
  have hleft := h.eraseAll gone
  have htotal := h.totalBytes_eraseAll hnodup fun k hk => (hkeys k hk).1
  -- without its last victim an eviction leaves too much
  have hleast : ∀ before last, gone = before ++ [last] →
      capacity < (r.eraseAll gone).totalBytes + r.sizeOf last := fun before last hsplit => by
    have hlt := victims_least (hgone.trans hsplit)
    have hsizes : r.sizes gone = r.sizes before + r.sizeOf last := by
      rw [hsplit, sizes_append, sizes_cons]
      rfl
    omega
  refine ⟨?_, fun e he hpin => ?_, fun hle => absurd hover (Nat.not_lt_of_le hle), fun _ => ?_, ?_,
    r.pins_eraseAll gone, htotal, fun hfree k size hlast hsize => ?_⟩
  · rwa [h.toList_eq]
  · rw [h.toList_eq] at he
    rw [hleft.toList_eq, List.mem_filter]
    refine ⟨he, ?_⟩
    have hnot : e.1 ∉ gone := fun hmem => by
      rw [(hkeys _ hmem).2] at hpin
      cases hpin
    simpa using hnot
  · have henough := r.victims_enough (r.totalBytes - capacity) (m.map (·.1))
    rw [hgone] at henough
    rcases henough with hcovered | hall
    · refine .inl ⟨by omega, ?_⟩
      rcases gone.eq_nil_or_concat with rfl | ⟨before, last, hsplit⟩
      · rw [show r.sizes [] = 0 from rfl] at hcovered
        omega
      · rw [List.concat_eq_append] at hsplit
        exact ⟨before, last, hsplit, hleast before last hsplit⟩
    · refine .inr fun e he => ?_
      rw [hleft.toList_eq, List.mem_filter] at he
      have hnot : e.1 ∉ gone := by simpa using he.2
      rw [isPinned, r.pins_eraseAll, ← isPinned]
      by_contra hpin
      exact hnot (hall ▸ List.mem_filter.mpr ⟨List.mem_map_of_mem he.1, by simpa using hpin⟩)
  · rw [hleft.toList_eq, h.toList_eq]
  · exact h.newest hfront hleast hfree (h.toList_eq ▸ hlast) hsize

theorem Tracks.evictOver_evicts (h : r.Tracks m) (capacity : Nat) :
    r.Evicts capacity (r.evictOver capacity).1 (r.evictOver capacity).2 := by
  simp only [Recency.evictOver]
  split
  · next hle => exact .of_le hle
  · next hover =>
    rw [h.keys_order]
    exact h.evicts (Nat.lt_of_not_le hover) rfl

end BuildCache.Recency
