import BuildCache.Proofs.Recency.Eviction

/-! # Recency in 64-bit numbers: no operation leaves their range or misses an entry -/
namespace BuildCache.Recency

open KeyMap (Once weight)

variable {r : Recency} {m : KeyMap Nat} {k : CacheKey} {u : Use}

/-- The maps fit together, and the counters fit them. -/
structure Linked (r : Recency) : Prop where
  once : r.uses.Once
  ticks : r.order.Pairwise (·.1 < ·.1)
  /-- A tick leads to a key where the key leads to the tick. -/
  inverse : ∀ tick k, (tick, k) ∈ r.order ↔ ∃ size, r.uses.find? k = some ⟨size, tick⟩
  fresh : ∀ e ∈ r.order, e.1 < r.nextTick
  total : r.totalBytes = weight Use.size r.uses
  pinned : ∀ e ∈ r.pins, 1 ≤ e.2

theorem Tracks.linked (h : r.Tracks m) (hpinned : ∀ e ∈ r.pins, 1 ≤ e.2) : r.Linked := by
  obtain ⟨l, hl, rfl⟩ := h
  have horder : r.order = l.map fun e => (e.2.tick, e.1) := hl.order
  refine ⟨hl.once.perm hl.uses, ?_, fun tick k => ?_, ?_, ?_, hpinned⟩
  · rw [horder]
    exact List.pairwise_map.mpr hl.ticks
  · have hfind : r.uses.find? k = l.find? k := hl.find?_uses k
    simp only [horder, hfind, hl.once.find?_eq_some, List.mem_map, Prod.mk.injEq]
    constructor
    · rintro ⟨⟨k, u⟩, he, rfl, rfl⟩
      exact ⟨u.size, he⟩
    · rintro ⟨size, he⟩
      exact ⟨_, he, rfl, rfl⟩
  · rw [horder]
    exact List.forall_mem_map.mpr hl.fresh
  · rw [KeyMap.weight_perm hl.uses]
    exact hl.total

theorem Linked.size_le (h : r.Linked) (hk : r.uses.find? k = some u) : u.size ≤ r.totalBytes := by
  rw [h.total, h.once.weight_erase hk Use.size]
  exact Nat.le_add_right _ _

theorem Linked.exists_use (h : r.Linked) (hk : k ∈ r.order.map (·.2)) : ∃ u, r.uses.find? k = some u := by
  obtain ⟨⟨tick, k⟩, he, rfl⟩ := List.mem_map.mp hk
  obtain ⟨size, hfind⟩ := (h.inverse tick k).mp he
  exact ⟨_, hfind⟩

theorem sizeOf_of_find? (hk : r.uses.find? k = some u) : r.sizeOf k = u.size := by
  rw [sizeOf, hk]
  rfl

def add? (a b : Nat) : Option Nat := if a + b < limit then some (a + b) else none
def sub? (a b : Nat) : Option Nat := if b ≤ a then some (a - b) else none

/-- Binds a tick in a map that is listed in the order of ticks. -/
def bindTick (order : List (Nat × CacheKey)) (tick : Nat) (k : CacheKey) : List (Nat × CacheKey) :=
  order.filter (·.1 < tick) ++ (tick, k) :: order.filter (tick < ·.1)

/-! The operations fail where a sum leaves 64 bits, a difference is below zero, or a key in the order of
uses has no entry. -/
namespace Checked

def remove (r : Recency) (k : CacheKey) : Option (Recency × Option Nat) :=
  match r.uses.find? k with
  | none => some (r, none)
  | some u => do
    let totalBytes ← sub? r.totalBytes u.size
    some ({ r with uses := r.uses.erase k, order := dropTick r.order u.tick, totalBytes }, some u.size)

def insert (r : Recency) (k : CacheKey) (size : Nat) : Option Recency := do
  let (r, _) ← remove r k
  let nextTick ← add? r.nextTick 1
  let totalBytes ← add? r.totalBytes size
  some { r with
    uses := r.uses.insert k ⟨size, r.nextTick⟩
    order := bindTick r.order r.nextTick k
    nextTick
    totalBytes }

def touch (r : Recency) (k : CacheKey) : Option (Recency × Bool) :=
  match r.uses.find? k with
  | none => some (r, false)
  | some u => do
    let nextTick ← add? r.nextTick 1
    some ({ r with
      uses := r.uses.insert k ⟨u.size, r.nextTick⟩
      order := bindTick (dropTick r.order u.tick) r.nextTick k
      nextTick }, true)

def pin (r : Recency) (k : CacheKey) : Option Recency := do
  let n ← add? ((r.pins.find? k).getD 0) 1
  some { r with pins := r.pins.insert k n }

def unpin (r : Recency) (k : CacheKey) : Option Recency :=
  match r.pins.find? k with
  | none => some r
  | some n => do
    let n ← sub? n 1
    some { r with pins := if n = 0 then r.pins.erase k else r.pins.insert k n }

def victims (r : Recency) (excess : Nat) : List CacheKey → Option (List CacheKey)
  | [] => some []
  | k :: rest =>
    if excess = 0 then some []
    else if r.isPinned k then victims r excess rest
    else do
      let u ← r.uses.find? k
      let gone ← victims r (excess - u.size) rest
      some (k :: gone)

def removeAll (r : Recency) (keys : List CacheKey) : Option Recency :=
  keys.foldlM (fun r k => (remove r k).map (·.1)) r

def evictOver (r : Recency) (capacity : Nat) : Option (Recency × List CacheKey) :=
  if r.totalBytes ≤ capacity then some (r, [])
  else do
    let excess ← sub? r.totalBytes capacity
    let gone ← victims r excess (r.order.map (·.2))
    let r ← removeAll r gone
    some (r, gone)

def toList (r : Recency) : Option (List (CacheKey × Nat)) :=
  r.order.mapM fun e => (r.uses.find? e.2).map fun u => (e.2, u.size)

end Checked

theorem sub?_eq {a b : Nat} (h : b ≤ a) : sub? a b = some (a - b) := if_pos h
theorem add?_eq {a b : Nat} (h : a + b < limit) : add? a b = some (a + b) := if_pos h

theorem lt_of_add? {a b n : Nat} (h : add? a b = some n) : a + b < limit := by
  unfold add? at h
  split at h
  · assumption
  · cases h

theorem bindTick_eq {order : List (Nat × CacheKey)} {tick : Nat} (h : ∀ e ∈ order, e.1 < tick) (k : CacheKey) :
    bindTick order tick k = order ++ [(tick, k)] := by
  rw [bindTick, List.filter_eq_self.mpr fun e he => decide_eq_true (h e he), List.filter_eq_nil_iff.mpr]
  intro e he
  simpa using Nat.le_of_lt (h e he)

@[simp] theorem nextTick_erase (r : Recency) (k : CacheKey) : (r.erase k).nextTick = r.nextTick := by
  simp only [Recency.erase]
  split <;> rfl

theorem totalBytes_erase_le (r : Recency) (k : CacheKey) : (r.erase k).totalBytes ≤ r.totalBytes := by
  simp only [Recency.erase]
  split
  · exact Nat.le_refl _
  · exact Nat.sub_le _ _

theorem order_erase (r : Recency) (k : CacheKey) : ∀ e ∈ (r.erase k).order, e ∈ r.order := by
  simp only [Recency.erase]
  split
  · exact fun _ he => he
  · exact fun _ he => (List.mem_filter.mp he).1

namespace Linked

theorem remove_eq (h : r.Linked) (k : CacheKey) :
    Checked.remove r k = some (r.erase k, (r.uses.find? k).map (·.size)) := by
  simp only [Checked.remove, Recency.erase]
  cases hk : r.uses.find? k with
  | none => rfl
  | some u =>
    simp only [sub?_eq (h.size_le hk)]
    rfl

theorem insert_eq (h : r.Linked) (k : CacheKey) (size : Nat) (hticks : r.nextTick + 1 < limit)
    (htotal : (r.erase k).totalBytes + size < limit) : Checked.insert r k size = some (r.insert k size) := by
  have hbind := bindTick_eq (fun e he => h.fresh e (r.order_erase k e he)) k
  rw [Checked.insert, h.remove_eq]
  simp only [Option.bind_eq_bind, Option.bind_some, nextTick_erase, add?_eq hticks, add?_eq htotal, hbind]
  simp only [Recency.insert, nextTick_erase]

theorem touch_eq (h : r.Linked) (k : CacheKey) (hticks : r.nextTick + 1 < limit) :
    Checked.touch r k = some (r.touch k, r.contains k) := by
  simp only [Checked.touch, Recency.touch, contains, KeyMap.contains]
  cases hk : r.uses.find? k with
  | none => rfl
  | some u =>
    have hbind := bindTick_eq (fun e (he : e ∈ dropTick r.order u.tick) => h.fresh e (List.mem_filter.mp he).1) k
    simp only [Option.bind_eq_bind, add?_eq hticks, Option.bind_some, hbind]
    rfl

theorem unpin_eq (h : r.Linked) (k : CacheKey) : Checked.unpin r k = some (r.unpin k) := by
  simp only [Checked.unpin, Recency.unpin]
  cases hk : r.pins.find? k with
  | none => rfl
  | some n =>
    have hn : 1 ≤ n := h.pinned _ (KeyMap.mem_of_find? hk)
    simp only [Option.bind_eq_bind, sub?_eq hn, Option.bind_some]

theorem victims_eq (h : r.Linked) {keys : List CacheKey} (hkeys : ∀ k ∈ keys, k ∈ r.order.map (·.2))
    (excess : Nat) : Checked.victims r excess keys = some (r.victims excess keys) := by
  induction keys generalizing excess with
  | nil => rfl
  | cons k keys ih =>
    have ih := ih fun l hl => hkeys l (List.mem_cons_of_mem _ hl)
    rw [Checked.victims, Recency.victims]
    split
    · rfl
    · split
      · exact ih excess
      · obtain ⟨u, hu⟩ := h.exists_use (hkeys k List.mem_cons_self)
        rw [hu, sizeOf_of_find? hu]
        simp only [Option.bind_eq_bind, Option.bind_some, ih]

theorem listed_eq (h : r.Linked) {order : List (Nat × CacheKey)} (horder : ∀ e ∈ order, e ∈ r.order) :
    order.mapM (fun e => (r.uses.find? e.2).map fun u => (e.2, u.size))
      = some (order.map fun e => (e.2, r.sizeOf e.2)) := by
  induction order with
  | nil => rfl
  | cons e order ih =>
    obtain ⟨he, horder⟩ := List.forall_mem_cons.mp horder
    obtain ⟨u, hu⟩ := h.exists_use (List.mem_map_of_mem he)
    rw [List.mapM_cons, hu, ih horder, List.map_cons, sizeOf_of_find? hu]
    rfl

theorem toList_eq (h : r.Linked) : Checked.toList r = some r.toList := h.listed_eq fun _ he => he

end Linked

theorem pin_eq (hpins : (r.pins.find? k).getD 0 + 1 < limit) : Checked.pin r k = some (r.pin k) := by
  rw [Checked.pin, add?_eq hpins]
  rfl

namespace Tracks

theorem removeAll_eq (h : r.Tracks m) (hpinned : ∀ e ∈ r.pins, 1 ≤ e.2) (keys : List CacheKey) :
    Checked.removeAll r keys = some (r.eraseAll keys) := by
  induction keys generalizing r m with
  | nil => rfl
  | cons k keys ih =>
    have hrest : Checked.removeAll (r.erase k) keys = some ((r.erase k).eraseAll keys) :=
      ih (h.erase k) (by rwa [pins_erase])
    rw [Checked.removeAll, List.foldlM_cons, (h.linked hpinned).remove_eq]
    exact hrest

theorem evictOver_eq (h : r.Tracks m) (hpinned : ∀ e ∈ r.pins, 1 ≤ e.2) (capacity : Nat) :
    Checked.evictOver r capacity = some (r.evictOver capacity) := by
  rw [Checked.evictOver, Recency.evictOver]
  split
  · rfl
  · next hover =>
    simp only [sub?_eq (Nat.le_of_not_le hover), Option.bind_eq_bind, Option.bind_some,
      (h.linked hpinned).victims_eq (fun _ hk => hk), h.removeAll_eq hpinned]

end Tracks

inductive Op
  | insert (k : CacheKey) (size : Nat)
  | touch (k : CacheKey)
  | remove (k : CacheKey)
  | pin (k : CacheKey)
  | unpin (k : CacheKey)
  | evictOver (capacity : Nat)

inductive Answer
  | done
  | found (b : Bool)
  | removed (size : Option Nat)
  | evicted (keys : List CacheKey)
  deriving DecidableEq

namespace Op

def onRecency (r : Recency) : Op → Recency × Answer
  | insert k size => (r.insert k size, .done)
  | touch k => (r.touch k, .found (r.contains k))
  | remove k => (r.erase k, .removed ((r.uses.find? k).map (·.size)))
  | pin k => (r.pin k, .done)
  | unpin k => (r.unpin k, .done)
  | evictOver capacity => (r.evictOver capacity).map id .evicted

def onChecked (r : Recency) : Op → Option (Recency × Answer)
  | insert k size => (Checked.insert r k size).map (·, .done)
  | touch k => (Checked.touch r k).map (Prod.map id .found)
  | remove k => (Checked.remove r k).map (Prod.map id .removed)
  | pin k => (Checked.pin r k).map (·, .done)
  | unpin k => (Checked.unpin r k).map (·, .done)
  | evictOver capacity => (Checked.evictOver r capacity).map (Prod.map id .evicted)

/-- The bytes that an operation may add to the total. -/
def size : Op → Nat
  | insert _ size => size
  | touch _ | remove _ | pin _ | unpin _ | evictOver _ => 0

/-- Makes operations one after another and keeps the answers. -/
def run {α : Type} (call : α → Op → α × Answer) : α → List Op → α × List Answer
  | x, [] => (x, [])
  | x, op :: rest => ((run call (call x op).1 rest).1, (call x op).2 :: (run call (call x op).1 rest).2)

theorem run_fst {α : Type} (call : α → Op → α × Answer) (x : α) (ops : List Op) :
    (run call x ops).1 = ops.foldl (fun x op => (call x op).1) x := by
  induction ops generalizing x with
  | nil => rfl
  | cons op ops ih => exact ih (call x op).1

def runChecked : Recency → List Op → Option (Recency × List Answer)
  | r, [] => some (r, [])
  | r, op :: rest => do
    let (r, answer) ← op.onChecked r
    let (r, answers) ← runChecked r rest
    some (r, answer :: answers)

end Op

/-- All that operations may add leaves each number in its range. -/
structure Room (r : Recency) (ops : List Op) : Prop where
  ticks : r.nextTick + ops.length < limit
  total : r.totalBytes + (ops.map Op.size).sum < limit
  pins : ∀ k, (r.pins.find? k).getD 0 + ops.length < limit

variable {op : Op} {ops : List Op}

theorem nextTick_eraseAll (r : Recency) (keys : List CacheKey) : (r.eraseAll keys).nextTick = r.nextTick := by
  induction keys generalizing r with
  | nil => rfl
  | cons k keys ih => exact (ih (r.erase k)).trans (nextTick_erase r k)

theorem totalBytes_eraseAll_le (r : Recency) (keys : List CacheKey) :
    (r.eraseAll keys).totalBytes ≤ r.totalBytes := by
  induction keys generalizing r with
  | nil => exact Nat.le_refl _
  | cons k keys ih => exact (ih (r.erase k)).trans (r.totalBytes_erase_le k)

theorem nextTick_le (r : Recency) (op : Op) : (op.onRecency r).1.nextTick ≤ r.nextTick + 1 := by
  cases op with
  | insert k size => simp [Op.onRecency, Recency.insert]
  | touch k =>
    simp only [Op.onRecency, Recency.touch]
    split <;> simp
  | remove k => simp [Op.onRecency]
  | pin k => exact Nat.le_succ _
  | unpin k =>
    simp only [Op.onRecency, Recency.unpin]
    split <;> simp
  | evictOver capacity =>
    simp only [Op.onRecency, Recency.evictOver]
    split <;> simp [nextTick_eraseAll]

theorem totalBytes_le (r : Recency) (op : Op) : (op.onRecency r).1.totalBytes ≤ r.totalBytes + op.size := by
  cases op with
  | insert k size => exact Nat.add_le_add_right (r.totalBytes_erase_le k) size
  | touch k =>
    simp only [Op.onRecency, Recency.touch]
    split <;> simp
  | remove k => exact r.totalBytes_erase_le k
  | pin k => exact Nat.le_refl _
  | unpin k =>
    simp only [Op.onRecency, Recency.unpin]
    split <;> simp
  | evictOver capacity =>
    simp only [Op.onRecency, Recency.evictOver]
    split
    · exact Nat.le_refl _
    · exact r.totalBytes_eraseAll_le _

theorem pins_le (r : Recency) (op : Op) (k : CacheKey) :
    ((op.onRecency r).1.pins.find? k).getD 0 ≤ (r.pins.find? k).getD 0 + 1 := by
  cases op with
  | insert l size => simp [Op.onRecency]
  | touch l => simp [Op.onRecency]
  | remove l => simp [Op.onRecency]
  | pin l =>
    rw [Op.onRecency, find?_pins_pin]
    split <;> omega
  | unpin l =>
    rw [Op.onRecency, find?_pins_unpin]
    omega
  | evictOver capacity =>
    simp only [Op.onRecency, Recency.evictOver]
    split <;> simp [pins_eraseAll]

theorem Room.step (h : r.Room (op :: ops)) : (op.onRecency r).1.Room ops := by
  obtain ⟨hticks, htotal, hpins⟩ := h
  rw [List.map_cons, List.sum_cons] at htotal
  refine ⟨?_, ?_, fun k => ?_⟩
  · have := r.nextTick_le op
    rw [List.length_cons] at hticks
    omega
  · have := r.totalBytes_le op
    omega
  · have := r.pins_le op k
    have hpins := hpins k
    rw [List.length_cons] at hpins
    omega

/-- With room for it an operation does what it does on numbers without limits. -/
theorem Room.onChecked_eq (hroom : r.Room (op :: ops)) (h : r.Tracks m) (hpinned : ∀ e ∈ r.pins, 1 ≤ e.2) :
    op.onChecked r = some (op.onRecency r) := by
  have hlinked := h.linked hpinned
  obtain ⟨hticks, htotal, hpins⟩ := hroom
  rw [List.map_cons, List.sum_cons] at htotal
  simp only [List.length_cons] at hticks hpins
  have htick : r.nextTick + 1 < limit := by omega
  have hpin : ∀ k, (r.pins.find? k).getD 0 + 1 < limit := fun k => by
    have := hpins k
    omega
  have hsum : r.totalBytes + op.size < limit := by omega
  cases op with
  | insert k size =>
    have hsum : (r.erase k).totalBytes + size < limit :=
      Nat.lt_of_le_of_lt (Nat.add_le_add_right (r.totalBytes_erase_le k) size) hsum
    rw [Op.onChecked, hlinked.insert_eq k size htick hsum]
    rfl
  | touch k =>
    rw [Op.onChecked, hlinked.touch_eq k htick]
    rfl
  | remove k =>
    rw [Op.onChecked, hlinked.remove_eq]
    rfl
  | pin k =>
    rw [Op.onChecked, pin_eq (hpin k)]
    rfl
  | unpin k =>
    rw [Op.onChecked, hlinked.unpin_eq]
    rfl
  | evictOver capacity =>
    rw [Op.onChecked, h.evictOver_eq hpinned]
    rfl

/-- An operation that has a result has the one that it has on numbers without limits. -/
theorem Tracks.of_onChecked (h : r.Tracks m) (hpinned : ∀ e ∈ r.pins, 1 ≤ e.2) {s : Recency} {answer : Answer}
    (ho : op.onChecked r = some (s, answer)) : op.onRecency r = (s, answer) := by
  have hlinked := h.linked hpinned
  cases op with
  | insert k size =>
    obtain ⟨s, hs, he⟩ := Option.map_eq_some_iff.mp ho
    have hbounds := hs
    rw [Checked.insert, hlinked.remove_eq] at hbounds
    simp only [Option.bind_eq_bind, Option.bind_some, Option.bind_eq_some_iff, nextTick_erase] at hbounds
    obtain ⟨_, hticks, _, htotal, -⟩ := hbounds
    rw [hlinked.insert_eq k size (lt_of_add? hticks) (lt_of_add? htotal)] at hs
    cases hs
    cases he
    rfl
  | touch k =>
    obtain ⟨⟨s, b⟩, hs, he⟩ := Option.map_eq_some_iff.mp ho
    cases he
    cases hk : r.uses.find? k with
    | none =>
      simp only [Checked.touch, hk] at hs
      cases hs
      simp [Op.onRecency, Recency.touch, contains, KeyMap.contains, hk]
    | some u =>
      have hbounds := hs
      simp only [Checked.touch, hk, Option.bind_eq_bind, Option.bind_eq_some_iff] at hbounds
      obtain ⟨_, hticks, -⟩ := hbounds
      rw [hlinked.touch_eq k (lt_of_add? hticks)] at hs
      cases hs
      rfl
  | remove k =>
    rw [Op.onChecked, hlinked.remove_eq] at ho
    cases ho
    rfl
  | pin k =>
    obtain ⟨s, hs, he⟩ := Option.map_eq_some_iff.mp ho
    obtain ⟨_, hn, -⟩ := Option.bind_eq_some_iff.mp hs
    rw [pin_eq (lt_of_add? hn)] at hs
    cases hs
    cases he
    rfl
  | unpin k =>
    rw [Op.onChecked, hlinked.unpin_eq] at ho
    cases ho
    rfl
  | evictOver capacity =>
    rw [Op.onChecked, h.evictOver_eq hpinned] at ho
    cases ho
    rfl

end BuildCache.Recency
