import BuildCache.KeyMap

/-! # Recency of entries: sizes, last uses and pins, with the least recently used evicted first -/
namespace BuildCache

/-- The size of an entry and the tick of its last use. -/
structure Recency.Use where
  size : Nat
  tick : Nat
  deriving DecidableEq

structure Recency where
  uses : KeyMap Recency.Use
  /-- Keys by the tick of their last use, oldest first. -/
  order : List (Nat × CacheKey)
  /-- How often each pinned key is pinned. -/
  pins : KeyMap Nat
  nextTick : Nat
  totalBytes : Nat
  deriving DecidableEq

namespace Recency

def empty : Recency := ⟨[], [], [], 0, 0⟩

def size (r : Recency) : Nat := r.uses.length
def contains (r : Recency) (k : CacheKey) : Bool := r.uses.contains k
def isPinned (r : Recency) (k : CacheKey) : Bool := r.pins.contains k
def sizeOf (r : Recency) (k : CacheKey) : Nat := ((r.uses.find? k).map (·.size)).getD 0

def dropTick (order : List (Nat × CacheKey)) (tick : Nat) : List (Nat × CacheKey) := order.filter (·.1 ≠ tick)

/-- The tracked entries with their sizes, least recently used first. -/
def toList (r : Recency) : List (CacheKey × Nat) := r.order.map fun e => (e.2, r.sizeOf e.2)

def erase (r : Recency) (k : CacheKey) : Recency :=
  match r.uses.find? k with
  | none => r
  | some u => { r with
      uses := r.uses.erase k
      order := dropTick r.order u.tick
      totalBytes := r.totalBytes - u.size }

/-- Tracks a key as the most recently used one. -/
def insert (r : Recency) (k : CacheKey) (size : Nat) : Recency :=
  let r := r.erase k
  { r with
    uses := r.uses.insert k ⟨size, r.nextTick⟩
    order := r.order ++ [(r.nextTick, k)]
    nextTick := r.nextTick + 1
    totalBytes := r.totalBytes + size }

/-- Marks a tracked key as the most recently used one. -/
def touch (r : Recency) (k : CacheKey) : Recency :=
  match r.uses.find? k with
  | none => r
  | some u => { r with
      uses := r.uses.insert k ⟨u.size, r.nextTick⟩
      order := dropTick r.order u.tick ++ [(r.nextTick, k)]
      nextTick := r.nextTick + 1 }

/-- Protects a key from eviction until it is unpinned as often. -/
def pin (r : Recency) (k : CacheKey) : Recency :=
  { r with pins := r.pins.insert k ((r.pins.find? k).getD 0 + 1) }

def unpin (r : Recency) (k : CacheKey) : Recency :=
  match r.pins.find? k with
  | none => r
  | some n => { r with pins := if n - 1 = 0 then r.pins.erase k else r.pins.insert k (n - 1) }

/-- The oldest unpinned keys whose sizes cover the excess. -/
def victims (r : Recency) (excess : Nat) : List CacheKey → List CacheKey
  | [] => []
  | k :: rest =>
    if excess = 0 then []
    else if r.isPinned k then r.victims excess rest
    else k :: r.victims (excess - r.sizeOf k) rest

def eraseAll (r : Recency) (keys : List CacheKey) : Recency := keys.foldl erase r

/-- Brings the total down to a capacity, as far as pins allow; the removed keys come oldest first. -/
def evictOver (r : Recency) (capacity : Nat) : Recency × List CacheKey :=
  if r.totalBytes ≤ capacity then (r, [])
  else
    let gone := r.victims (r.totalBytes - capacity) (r.order.map (·.2))
    (r.eraseAll gone, gone)

/-- Totals are counted in 64 bits. -/
def limit : Nat := Bytes.range 8

/-- Tracks a key unless the total would leave its range. -/
def insert? (r : Recency) (k : CacheKey) (size : Nat) : Option Recency :=
  let r := r.insert k size
  if r.totalBytes < limit then some r else none

end Recency
end BuildCache
