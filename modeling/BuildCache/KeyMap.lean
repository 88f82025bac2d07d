import BuildCache.Digest

/-! # Finite maps from cache keys -/
namespace BuildCache

/-- Bindings in no particular order; the first binding of a key counts. -/
abbrev KeyMap (α : Type) := List (CacheKey × α)

namespace KeyMap

variable {α : Type}

def find? (m : KeyMap α) (k : CacheKey) : Option α := (List.find? (·.1 = k) m).map (·.2)

def contains (m : KeyMap α) (k : CacheKey) : Bool := (m.find? k).isSome

def erase (m : KeyMap α) (k : CacheKey) : KeyMap α := m.filter (·.1 ≠ k)

def insert (m : KeyMap α) (k : CacheKey) (a : α) : KeyMap α := (k, a) :: m.erase k

theorem erase_cons (e : CacheKey × α) (m : KeyMap α) (k : CacheKey) :
    KeyMap.erase (e :: m) k = if e.1 = k then m.erase k else e :: m.erase k := by
  by_cases h : e.1 = k <;> simp [erase, h]

theorem find?_cons (e : CacheKey × α) (m : KeyMap α) (k : CacheKey) :
    KeyMap.find? (e :: m) k = if e.1 = k then some e.2 else m.find? k := by
  by_cases h : e.1 = k <;> simp [find?, h]

theorem find?_erase (m : KeyMap α) (k l : CacheKey) :
    (m.erase k).find? l = if k = l then none else m.find? l := by
  induction m with
  | nil => simp [erase, find?]
  | cons e m ih =>
    rw [erase_cons]
    split
    · next hk => rw [ih, find?_cons, hk]; split <;> rfl
    · next hk =>
      rw [find?_cons, find?_cons, ih]
      by_cases hl : e.1 = l
      · have : k ≠ l := fun h => hk (hl.trans h.symm)
        simp [hl, this]
      · simp [hl]

@[simp] theorem find?_insert (m : KeyMap α) (k l : CacheKey) (a : α) :
    (m.insert k a).find? l = if k = l then some a else m.find? l := by
  rw [insert, find?_cons, find?_erase]
  split <;> rfl

end KeyMap
end BuildCache
