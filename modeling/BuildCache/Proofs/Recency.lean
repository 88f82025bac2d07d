import BuildCache.Proofs.KeyMap
import BuildCache.Recency

/-! # Recency as a list: entries with their sizes, least recently used first -/
namespace BuildCache.Recency

open KeyMap (Once weight trim)

variable {r : Recency} {l : KeyMap Use} {m : KeyMap Nat} {k : CacheKey} {size : Nat} {u : Use}

/-- Nothing is pinned, and a list in the order of ticks has all the entries. -/
structure Shows (r : Recency) (l : KeyMap Use) : Prop where
  order : r.order = l.map fun e => (e.2.tick, e.1)
  uses : r.uses.Perm l
  once : l.Once
  ticks : l.Pairwise (·.2.tick < ·.2.tick)
  fresh : ∀ e ∈ l, e.2.tick < r.nextTick
  total : r.totalBytes = weight Use.size l
  pins : r.pins = []

/-- Nothing is pinned, and the entries are those of a list of sizes, least recently used first. -/
def Lists (r : Recency) (m : KeyMap Nat) : Prop := ∃ l, r.Shows l ∧ m = l.mapValues Use.size

theorem lists_empty : Lists .empty [] := by
  refine ⟨[], ⟨rfl, .refl _, List.nodup_nil, .nil, fun e he => ?_, rfl, rfl⟩, rfl⟩
  cases he

theorem Shows.find?_uses (h : r.Shows l) (k : CacheKey) : r.uses.find? k = l.find? k :=
    h.once.find?_perm h.uses k

theorem Lists.find?_uses (h : r.Lists m) (k : CacheKey) : (r.uses.find? k).map (·.size) = m.find? k := by
  obtain ⟨l, hl, rfl⟩ := h
  rw [hl.find?_uses, KeyMap.find?_mapValues]

theorem Lists.contains_eq (h : r.Lists m) (k : CacheKey) : r.contains k = (m.find? k).isSome := by
  rw [← h.find?_uses, Option.isSome_map, contains, KeyMap.contains]

theorem Lists.once (h : r.Lists m) : m.Once := by
  obtain ⟨l, hl, rfl⟩ := h
  rw [Once, KeyMap.keys_mapValues]
  exact hl.once

theorem Lists.once_of_mapValues {α : Type} {weigh : α → Nat} {entries : KeyMap α}
    (h : r.Lists (entries.mapValues weigh)) : entries.Once := by
  have := h.once
  rwa [Once, KeyMap.keys_mapValues] at this

theorem Lists.size_eq (h : r.Lists m) : r.size = m.length := by
  obtain ⟨l, hl, rfl⟩ := h
  rw [size, hl.uses.length_eq, KeyMap.mapValues, List.length_map]

theorem Lists.totalBytes_eq (h : r.Lists m) : r.totalBytes = weight id m := by
  obtain ⟨l, hl, rfl⟩ := h
  rw [hl.total, KeyMap.weight_mapValues]
  rfl

theorem Lists.isPinned_eq (h : r.Lists m) (k : CacheKey) : r.isPinned k = false := by
  obtain ⟨l, hl, -⟩ := h
  rw [isPinned, hl.pins]
  rfl

theorem Lists.sizeOf_eq (h : r.Lists m) {e : CacheKey × Nat} (he : e ∈ m) : r.sizeOf e.1 = e.2 := by
  rw [sizeOf, h.find?_uses, h.once.find?_eq_some.mpr he]
  rfl

theorem Lists.keys_order (h : r.Lists m) : r.order.map (·.2) = m.map (·.1) := by
  obtain ⟨l, hl, rfl⟩ := h
  rw [hl.order, KeyMap.keys_mapValues, List.map_map]
  rfl

theorem Lists.toList_eq (h : r.Lists m) : r.toList = m := by
  have hmap : r.toList = (r.order.map (·.2)).map fun k => (k, r.sizeOf k) := by
    rw [toList, List.map_map]
    rfl
  rw [hmap, h.keys_order, List.map_map]
  refine (List.map_congr_left fun e he => ?_).trans (List.map_id m)
  rw [Function.comp_apply, h.sizeOf_eq he]
  rfl

theorem Shows.dropTick_eq (h : r.Shows l) (hk : l.find? k = some u) :
    dropTick r.order u.tick = (l.erase k).map fun e => (e.2.tick, e.1) := by
  have hmem := h.once.find?_eq_some.mp hk
  have hticks : (l.map (·.2.tick)).Nodup := List.pairwise_map.mpr (h.ticks.imp Nat.ne_of_lt)
  have hsame : ∀ e ∈ l, (e.2.tick = u.tick ↔ e.1 = k) := fun e he => by
    constructor
    · intro ht
      exact congrArg Prod.fst (List.inj_on_of_nodup_map hticks he hmem ht)
    · rintro rfl
      have := h.once.find?_eq_some.mpr he
      rw [hk, Option.some.injEq] at this
      rw [this]
  rw [dropTick, h.order, List.filter_map, KeyMap.erase]
  congr 1
  apply List.filter_congr
  intro e he
  simp [hsame e he]

theorem Shows.erase (h : r.Shows l) (k : CacheKey) : (r.erase k).Shows (l.erase k) := by
  simp only [Recency.erase]
  cases hk : r.uses.find? k with
  | none =>
    rw [h.find?_uses] at hk
    rw [KeyMap.erase_eq_self hk]
    exact h
  | some u =>
    rw [h.find?_uses] at hk
    refine ⟨h.dropTick_eq hk, KeyMap.erase_perm h.uses k, h.once.erase k, h.ticks.filter _,
      fun e he => h.fresh e (List.mem_filter.mp he).1, ?_, h.pins⟩
    have := h.once.weight_erase hk Use.size
    show r.totalBytes - u.size = _
    rw [h.total]
    omega

theorem Shows.push (h : r.Shows l) (hk : l.find? k = none) (size : Nat) :
    Shows { r with
      uses := r.uses.insert k ⟨size, r.nextTick⟩
      order := r.order ++ [(r.nextTick, k)]
      nextTick := r.nextTick + 1
      totalBytes := r.totalBytes + size } (l ++ [(k, ⟨size, r.nextTick⟩)]) := by
  have hold : r.uses.erase k = r.uses := KeyMap.erase_eq_self ((h.find?_uses k).trans hk)
  refine ⟨?_, ?_, h.once.append_singleton hk _, ?_, fun e he => ?_, ?_, h.pins⟩
  · rw [List.map_append, h.order]
    rfl
  · rw [KeyMap.insert, hold]
    exact (h.uses.cons _).trans (List.perm_append_singleton _ _).symm
  · refine List.pairwise_append.mpr ⟨h.ticks, List.pairwise_singleton _ _, fun e he e' he' => ?_⟩
    rw [List.mem_singleton.mp he']
    exact h.fresh e he
  · rcases List.mem_append.mp he with he | he
    · exact Nat.lt_succ_of_lt (h.fresh e he)
    · rw [List.mem_singleton.mp he]
      exact Nat.lt_succ_self _
  · rw [KeyMap.weight_append, ← h.total]
    rfl

theorem Shows.insert (h : r.Shows l) (k : CacheKey) (size : Nat) :
    (r.insert k size).Shows (l.erase k ++ [(k, ⟨size, r.nextTick⟩)]) := by
  have hnone : KeyMap.find? (l.erase k) k = none := by rw [KeyMap.find?_erase, if_pos rfl]
  have htick : (r.erase k).nextTick = r.nextTick := by
    simp only [Recency.erase]
    split <;> rfl
  rw [← htick]
  exact (h.erase k).push hnone size

theorem Shows.touch_eq (h : r.Shows l) (hk : l.find? k = some u) : r.touch k = r.insert k u.size := by
  have hfind : r.uses.find? k = some u := (h.find?_uses k).trans hk
  have htotal : r.totalBytes - u.size + u.size = r.totalBytes := by
    have := h.once.weight_erase hk Use.size
    rw [h.total]
    omega
  have herase : KeyMap.erase (r.uses.erase k) k = r.uses.erase k :=
    KeyMap.erase_eq_self (by rw [KeyMap.find?_erase, if_pos rfl])
  simp only [touch, Recency.insert, Recency.erase, hfind, KeyMap.insert, herase, htotal]

theorem Lists.erase (h : r.Lists m) (k : CacheKey) : (r.erase k).Lists (m.erase k) := by
  obtain ⟨l, hl, rfl⟩ := h
  exact ⟨l.erase k, hl.erase k, KeyMap.erase_mapValues _ l k⟩

theorem Lists.insert (h : r.Lists m) (k : CacheKey) (size : Nat) :
    (r.insert k size).Lists (m.erase k ++ [(k, size)]) := by
  obtain ⟨l, hl, rfl⟩ := h
  exact ⟨_, hl.insert k size, by rw [KeyMap.mapValues_append_singleton, KeyMap.erase_mapValues]⟩

theorem Lists.touch (h : r.Lists m) (hk : m.find? k = some size) : (r.touch k).Lists
    (m.erase k ++ [(k, size)]) := by
  obtain ⟨l, hl, rfl⟩ := h
  rw [KeyMap.find?_mapValues] at hk
  obtain ⟨u, hu, rfl⟩ := Option.map_eq_some_iff.mp hk
  rw [hl.touch_eq hu]
  exact Lists.insert ⟨l, hl, rfl⟩ k u.size

theorem Lists.unpin_pin (h : r.Lists m) (k : CacheKey) : (r.pin k).unpin k = r := by
  obtain ⟨l, hl, -⟩ := h
  obtain ⟨uses, order, pins, nextTick, totalBytes⟩ := r
  obtain rfl : pins = [] := hl.pins
  simp [pin, unpin, KeyMap.insert, KeyMap.erase, KeyMap.find?]

theorem Lists.victims_eq (h : r.Lists m) {rest : KeyMap Nat} (hrest : ∀ e ∈ rest, e ∈ m) (limit : Nat) :
    r.victims (weight id rest - limit) (rest.map (·.1)) ++ (trim id limit rest).map (·.1)
      = rest.map (·.1) := by
  induction rest with
  | nil => rfl
  | cons e rest ih =>
    have ih := ih fun e' he' => hrest e' (List.mem_cons_of_mem _ he')
    have hsize := h.sizeOf_eq (hrest e List.mem_cons_self)
    rw [List.map_cons, victims, trim]
    by_cases hle : weight id (e :: rest) ≤ limit
    · rw [if_pos hle, if_pos (Nat.sub_eq_zero_of_le hle), List.nil_append, List.map_cons]
    · have hsub : weight id (e :: rest) - limit - r.sizeOf e.1 = weight id rest - limit := by
        have := KeyMap.weight_cons id e rest
        rw [id] at this
        omega
      rw [if_neg hle, if_neg (by omega), h.isPinned_eq, if_neg Bool.false_ne_true, hsub,
        List.cons_append, ih]

theorem Lists.eraseAll (h : r.Lists m) {dropped kept : KeyMap Nat} (hm : m = dropped ++ kept) :
    (r.eraseAll (dropped.map (·.1))).Lists kept := by
  induction dropped generalizing r m with
  | nil =>
    subst hm
    exact h
  | cons e dropped ih =>
    apply ih (h.erase e.1)
    have hnone := (KeyMap.Once.cons_iff.mp (hm ▸ h.once)).1
    rw [hm, List.cons_append, KeyMap.erase_cons, if_pos rfl]
    exact KeyMap.erase_eq_self hnone

/-- Eviction drops the least recently used entries, no more than are needed. -/
theorem Lists.evictOver {α : Type} {weigh : α → Nat} {entries : KeyMap α}
    (h : r.Lists (entries.mapValues weigh))
    (limit : Nat) : ∃ dropped, entries = dropped ++ entries.trim weigh limit ∧
      (r.evictOver limit).2 = dropped.map (·.1) ∧
      (r.evictOver limit).1.Lists ((entries.trim weigh limit).mapValues weigh) := by
  have htotal : r.totalBytes = weight weigh entries := by
    rw [h.totalBytes_eq, KeyMap.weight_mapValues]
    rfl
  obtain ⟨dropped, hdropped⟩ := KeyMap.exists_append_trim weigh limit entries
  refine ⟨dropped, hdropped, ?_⟩
  simp only [Recency.evictOver]
  rw [h.keys_order, htotal]
  split
  · next hle =>
    rw [KeyMap.trim_eq_self hle] at hdropped ⊢
    rw [List.append_left_eq_self.mp hdropped.symm]
    exact ⟨rfl, h⟩
  · have hvictims := h.victims_eq (fun _ => id) limit
    rw [KeyMap.trim_mapValues, KeyMap.weight_mapValues, KeyMap.keys_mapValues,
      KeyMap.keys_mapValues] at hvictims
    have hgone : r.victims (weight weigh entries - limit) ((entries.mapValues weigh).map (·.1))
      = dropped.map (·.1) := by
      rw [KeyMap.keys_mapValues]
      refine List.append_cancel_right (hvictims.trans ?_)
      rw [← List.map_append]
      exact congrArg _ hdropped
    have hsplit : entries.mapValues weigh
        = dropped.mapValues weigh ++ (entries.trim weigh limit).mapValues weigh := by
      rw [← KeyMap.mapValues_append, ← hdropped]
    rw [hgone]
    refine ⟨rfl, ?_⟩
    rw [← KeyMap.keys_mapValues weigh dropped]
    exact h.eraseAll hsplit

/-- The entries can be listed, and none is pinned. -/
def Listed (r : Recency) : Prop := ∃ m, r.Lists m

namespace Listed

theorem erase (h : r.Listed) (k : CacheKey) : (r.erase k).Listed := by
  obtain ⟨m, hm⟩ := h
  exact ⟨_, hm.erase k⟩

theorem insert (h : r.Listed) (k : CacheKey) (size : Nat) : (r.insert k size).Listed := by
  obtain ⟨m, hm⟩ := h
  exact ⟨_, hm.insert k size⟩

theorem touch (h : r.Listed) (k : CacheKey) : (r.touch k).Listed := by
  obtain ⟨m, hm⟩ := h
  cases hk : m.find? k with
  | some size => exact ⟨_, hm.touch hk⟩
  | none =>
    have hnone : r.uses.find? k = none := Option.map_eq_none_iff.mp ((hm.find?_uses k).trans hk)
    rw [Recency.touch, hnone]
    exact ⟨m, hm⟩

theorem unpin_pin (h : r.Listed) (k : CacheKey) : (r.pin k).unpin k = r := by
  obtain ⟨m, hm⟩ := h
  exact hm.unpin_pin k

end Listed

/-- But for what is pinned, the entries are those of a list. -/
def Tracks (r : Recency) (m : KeyMap Nat) : Prop := Lists { r with pins := [] } m

theorem Lists.tracks (h : r.Lists m) : r.Tracks m := by
  obtain ⟨l, hl, rfl⟩ := h
  exact ⟨l, ⟨hl.order, hl.uses, hl.once, hl.ticks, hl.fresh, hl.total, rfl⟩, rfl⟩

theorem Lists.pins_eq (h : r.Lists m) : r.pins = [] := by
  obtain ⟨l, hl, -⟩ := h
  exact hl.pins

@[simp] theorem pins_erase (r : Recency) (k : CacheKey) : (r.erase k).pins = r.pins := by
  simp only [Recency.erase]
  split <;> rfl

@[simp] theorem pins_insert (r : Recency) (k : CacheKey) (size : Nat) : (r.insert k size).pins = r.pins :=
  pins_erase r k

@[simp] theorem pins_touch (r : Recency) (k : CacheKey) : (r.touch k).pins = r.pins := by
  simp only [Recency.touch]
  split <;> rfl

theorem find?_pins_pin (r : Recency) (k l : CacheKey) :
    ((r.pin k).pins.find? l).getD 0 = (r.pins.find? l).getD 0 + if k = l then 1 else 0 := by
  simp only [Recency.pin, KeyMap.find?_insert]
  split
  · next hl => rw [hl, Option.getD_some]
  · rfl

theorem find?_pins_unpin (r : Recency) (k l : CacheKey) :
    ((r.unpin k).pins.find? l).getD 0 = (r.pins.find? l).getD 0 - if k = l then 1 else 0 := by
  simp only [Recency.unpin]
  split
  · next hk =>
    split
    · next hl => rw [← hl, hk, Option.getD_none]
    · rfl
  · next n hk =>
    by_cases hl : k = l
    · rw [← hl, if_pos rfl, hk, Option.getD_some]
      split
      · next hn => rw [KeyMap.find?_erase, if_pos rfl, Option.getD_none, hn]
      · rw [KeyMap.find?_insert, if_pos rfl, Option.getD_some]
    · rw [if_neg hl, Nat.sub_zero]
      split
      · rw [KeyMap.find?_erase, if_neg hl]
      · rw [KeyMap.find?_insert, if_neg hl]

theorem isPinned_of_pos (h : 0 < (r.pins.find? k).getD 0) : r.isPinned k = true := by
  rw [isPinned, KeyMap.contains]
  cases hk : r.pins.find? k with
  | none => simp [hk] at h
  | some n => rfl

namespace Tracks

theorem toList_eq (h : r.Tracks m) : r.toList = m := Lists.toList_eq (r := { r with pins := [] }) h

theorem contains_eq (h : r.Tracks m) (k : CacheKey) : r.contains k = (m.find? k).isSome :=
  Lists.contains_eq (r := { r with pins := [] }) h k

theorem unpin (h : r.Tracks m) (k : CacheKey) : (r.unpin k).Tracks m := by
  simp only [Recency.unpin]
  split
  · exact h
  · exact h

theorem erase (h : r.Tracks m) (k : CacheKey) : (r.erase k).Tracks (m.erase k) := by
  have herase := Lists.erase h k
  simp only [Recency.erase] at herase ⊢
  cases hk : r.uses.find? k with
  | none =>
    simp only [hk] at herase
    exact herase
  | some u =>
    simp only [hk] at herase
    exact herase

theorem insert (h : r.Tracks m) (k : CacheKey) (size : Nat) :
    (r.insert k size).Tracks (m.erase k ++ [(k, size)]) := by
  have hpush := Lists.insert h k size
  simp only [Recency.insert, Recency.erase] at hpush ⊢
  cases hk : r.uses.find? k with
  | none =>
    simp only [hk] at hpush
    exact hpush
  | some u =>
    simp only [hk] at hpush
    exact hpush

theorem find?_uses (h : r.Tracks m) (k : CacheKey) : (r.uses.find? k).map (·.size) = m.find? k :=
  Lists.find?_uses h k

theorem touch_of_none (h : r.Tracks m) (hk : m.find? k = none) : r.touch k = r := by
  rw [Recency.touch, Option.map_eq_none_iff.mp ((h.find?_uses k).trans hk)]

theorem touch_of_some (h : r.Tracks m) (hk : m.find? k = some size) :
    (r.touch k).Tracks (m.erase k ++ [(k, size)]) := by
  have hlast := Lists.touch h hk
  simp only [Recency.touch] at hlast ⊢
  cases hu : r.uses.find? k with
  | none =>
    simp only [hu] at hlast
    exact hlast
  | some u =>
    simp only [hu] at hlast
    exact hlast

theorem touch (h : r.Tracks m) (k : CacheKey) :
    ∃ m', (r.touch k).Tracks m' ∧ ∀ l, m'.find? l = m.find? l := by
  cases hk : m.find? k with
  | none => exact ⟨m, (h.touch_of_none hk).symm ▸ h, fun _ => rfl⟩
  | some size => exact ⟨_, h.touch_of_some hk, KeyMap.find?_promote hk⟩

end Tracks

/-- The entries can be listed, whatever is pinned. -/
def Tracked (r : Recency) : Prop := ∃ m, r.Tracks m

namespace Tracked

theorem contains_eq (h : r.Tracked) (k : CacheKey) : r.contains k = (KeyMap.find? r.toList k).isSome := by
  obtain ⟨m, hm⟩ := h
  rw [hm.contains_eq, hm.toList_eq]

theorem pin (h : r.Tracked) (k : CacheKey) : (r.pin k).Tracked := h

theorem unpin (h : r.Tracked) (k : CacheKey) : (r.unpin k).Tracked := by
  obtain ⟨m, hm⟩ := h
  exact ⟨m, hm.unpin k⟩

@[simp] theorem toList_unpin (r : Recency) (k : CacheKey) : (r.unpin k).toList = r.toList := by
  simp only [Recency.unpin]
  split <;> rfl

theorem erase (h : r.Tracked) (k : CacheKey) : (r.erase k).Tracked ∧
    ∀ l, KeyMap.find? (r.erase k).toList l = if k = l then none else KeyMap.find? r.toList l := by
  obtain ⟨m, hm⟩ := h
  refine ⟨⟨_, hm.erase k⟩, fun l => ?_⟩
  rw [(hm.erase k).toList_eq, hm.toList_eq, KeyMap.find?_erase]

theorem insert (h : r.Tracked) (k : CacheKey) (size : Nat) : (r.insert k size).Tracked ∧
    ∀ l, KeyMap.find? (r.insert k size).toList l = if k = l then some size else KeyMap.find? r.toList l := by
  obtain ⟨m, hm⟩ := h
  refine ⟨⟨_, hm.insert k size⟩, fun l => ?_⟩
  rw [(hm.insert k size).toList_eq, hm.toList_eq, KeyMap.find?_append_singleton, KeyMap.find?_erase]
  split <;> simp

theorem touch (h : r.Tracked) (k : CacheKey) : (r.touch k).Tracked ∧
    ∀ l, KeyMap.find? (r.touch k).toList l = KeyMap.find? r.toList l := by
  obtain ⟨m, hm⟩ := h
  obtain ⟨m', hm', hsame⟩ := hm.touch k
  refine ⟨⟨m', hm'⟩, fun l => ?_⟩
  rw [hm'.toList_eq, hm.toList_eq, hsame]

end Tracked
end BuildCache.Recency
