import Mathlib.Data.List.FinRange
import BuildCache.Proofs.Graph.Dependents

/-! # The cycle search over numbered units: it finds the same cycle under all numbers and orders of edges -/
namespace BuildCache.Graph

/-- Units by number, and for each one the numbers of those that it has edges to. -/
structure Table (n : Nat) where
  name : Fin n → String
  targets : Fin n → List (Fin n)

/-- Whether a unit was met, and whether it is finished. -/
inductive Mark
  | fresh
  | onPath
  | finished
  deriving DecidableEq

/-- Where a search over numbers stands: the units on the path with their edges left to follow, the top
first, the roots left to begin with, and the mark of each unit. -/
inductive Scan (n : Nat)
  | going (stack : List (Fin n × List (Fin n))) (roots : List (Fin n)) (marks : Fin n → Mark)
  | ended (cycle : Option (List String))

namespace Table

variable {n : Nat} {t : Table n} {g : Graph} {i j : Fin n} {path : List (Fin n)} {marks : Fin n → Mark}
  {done : List String} {s : Scan n} {x : Search}

/-- A table holds a graph: each unit under one number, and the edges of each unit once, in any order. -/
structure Of (t : Table n) (g : Graph) : Prop where
  injective : Function.Injective t.name
  names : ∀ u, u ∈ g.names ↔ ∃ i, t.name i = u
  once : ∀ i, (t.targets i).Nodup
  edges : ∀ i j, j ∈ t.targets i ↔ g.Needs (t.name i) (t.name j)

def byName (t : Table n) (units : List (Fin n)) : List (Fin n) :=
  units.mergeSort fun i j => decide (t.name i ≤ t.name j)

/-- Begins with a unit on top of the path. -/
def push (t : Table n) (i : Fin n) (stack : List (Fin n × List (Fin n))) : List (Fin n × List (Fin n)) :=
  (i, t.byName (t.targets i)) :: stack

/-- The cycle that an edge closes from the top of a path back to one of its units, read from the bottom. -/
def cycleFrom (t : Table n) (path : List (Fin n)) (i : Fin n) : List String :=
  (path.reverse.dropWhile (· ≠ i)).map t.name ++ [t.name i]

/-- Finishes the unit on top, follows its next edge, or begins with the next root. -/
def step (t : Table n) : Scan n → Scan n
  | .ended cycle => .ended cycle
  | .going ((i, []) :: stack) roots marks => .going stack roots (Function.update marks i .finished)
  | .going ((i, j :: pending) :: stack) roots marks =>
    match marks j with
    | .fresh => .going (t.push j ((i, pending) :: stack)) roots (Function.update marks j .onPath)
    | .onPath => .ended (some (t.cycleFrom (i :: stack.map (·.1)) j))
    | .finished => .going ((i, pending) :: stack) roots marks
  | .going [] (root :: roots) marks =>
    if marks root = .fresh then .going (t.push root []) roots (Function.update marks root .onPath)
    else .going [] roots marks
  | .going [] [] _ => .ended none

def start (t : Table n) : Scan n := .going [] (t.byName (List.finRange n)) fun _ => .fresh

/-- The search over numbers ends with a cycle, or without one. -/
def Finds (t : Table n) (cycle : Option (List String)) : Prop := ∃ k, t.step^[k] t.start = .ended cycle

/-- Every graph can be held, its units in the order in which they were added. -/
theorem exists_of (g : Graph) : ∃ t : Table g.names.length, t.Of g := by
  let name : Fin g.names.length → String := g.names.get
  refine ⟨⟨name, fun i => (List.finRange _).filter fun j => (name i, name j) ∈ g.edges⟩,
    List.nodup_iff_injective_get.mp g.names_nodup, fun u => List.mem_iff_get,
    fun i => (List.nodup_finRange _).filter _, fun i j => ?_⟩
  simp [Needs, List.mem_filter]

theorem map_byName (t : Table n) (units : List (Fin n)) :
    (t.byName units).map t.name = sortNames (units.map t.name) :=
  List.map_mergeSort fun _ _ _ _ => rfl

theorem Of.map_targets (h : t.Of g) (i : Fin n) :
    (t.byName (t.targets i)).map t.name = g.successors (t.name i) := by
  have hsorted : sortNames (g.successors (t.name i)) = g.successors (t.name i) :=
    sortNames_eq_self (pairwise_sortNames _)
  rw [map_byName, ← hsorted]
  refine sortNames_congr ((h.once i).map h.injective) (g.nodup_successors _) fun u => ?_
  rw [List.mem_map, mem_successors]
  constructor
  · rintro ⟨j, hj, rfl⟩
    exact (h.edges i j).mp hj
  · intro hu
    obtain ⟨j, rfl⟩ := (h.names u).mp (Needs.right_mem hu)
    exact ⟨j, (h.edges i j).mpr hu, rfl⟩

theorem Of.map_roots (h : t.Of g) : (t.byName (List.finRange n)).map t.name = sortNames g.names := by
  rw [map_byName]
  refine sortNames_congr ((List.nodup_finRange n).map h.injective) g.names_nodup fun u => ?_
  simp [h.names]

/-- A path without repetitions is cut at the same place from its top and from its bottom. -/
theorem Of.cycleFrom_eq (h : t.Of g) (hn : path.Nodup) (hi : i ∈ path) :
    t.cycleFrom path i = cycleTo (path.map t.name) (t.name i) := by
  obtain ⟨above, below, rfl, habove⟩ := List.eq_append_cons_of_mem hi
  have hbelow : i ∉ below := (List.nodup_cons.mp hn.of_append_right).1
  have hdrop : (above ++ i :: below).reverse.dropWhile (· ≠ i) = i :: above.reverse := by
    have hreverse : (above ++ i :: below).reverse = below.reverse ++ i :: above.reverse := by simp
    rw [hreverse, List.dropWhile_append_of_pos fun j hj => by
      simpa using fun he : j = i => hbelow (he ▸ List.mem_reverse.mp hj)]
    simp
  have htake : ((above ++ i :: below).map t.name).takeWhile (· ≠ t.name i) = above.map t.name := by
    rw [List.map_append, List.takeWhile_append_of_pos fun u hu => by
      obtain ⟨j, hj, rfl⟩ := List.mem_map.mp hu
      simpa using fun he : t.name j = t.name i => habove (h.injective he ▸ hj)]
    simp
  rw [cycleFrom, cycleTo, hdrop, htake, List.map_cons, List.map_reverse]

/-- The marks tell the units on a path from those that are finished and from those that were not met. -/
structure Marked (t : Table n) (path : List (Fin n)) (marks : Fin n → Mark) (done : List String) : Prop where
  nodup : path.Nodup
  onPath : ∀ i, marks i = .onPath ↔ i ∈ path
  finished : ∀ i, marks i = .finished ↔ t.name i ∈ done

theorem Marked.start (t : Table n) : t.Marked [] (fun _ => .fresh) [] := ⟨List.nodup_nil, by simp, by simp⟩

theorem Marked.of_fresh (h : t.Marked path marks done) (hi : marks i = .fresh) :
    i ∉ path ∧ t.name i ∉ done := by
  rw [← h.onPath, ← h.finished, hi]
  exact ⟨nofun, nofun⟩

theorem Marked.push (h : t.Marked path marks done) (hi : marks i = .fresh) :
    t.Marked (i :: path) (Function.update marks i .onPath) done := by
  obtain ⟨hpath, hdone⟩ := h.of_fresh hi
  refine ⟨List.nodup_cons.mpr ⟨hpath, h.nodup⟩, fun j => ?_, fun j => ?_⟩
  · by_cases hj : j = i
    · simp [hj]
    · rw [Function.update_of_ne hj, h.onPath, List.mem_cons, or_iff_right hj]
  · by_cases hj : j = i
    · simp [hj, hdone]
    · rw [Function.update_of_ne hj, h.finished]

theorem Marked.finish (hinj : Function.Injective t.name) (h : t.Marked (i :: path) marks done) :
    t.Marked path (Function.update marks i .finished) (t.name i :: done) := by
  obtain ⟨hpath, hnodup⟩ := List.nodup_cons.mp h.nodup
  refine ⟨hnodup, fun j => ?_, fun j => ?_⟩
  · by_cases hj : j = i
    · simp [hj, hpath]
    · rw [Function.update_of_ne hj, h.onPath, List.mem_cons, or_iff_right hj]
  · by_cases hj : j = i
    · simp [hj]
    · rw [Function.update_of_ne hj, h.finished, List.mem_cons, hinj.eq_iff, or_iff_right hj]

def frame (t : Table n) (e : Fin n × List (Fin n)) : Frame := ⟨t.name e.1, e.2.map t.name⟩

theorem units_map_frame (t : Table n) (stack : List (Fin n × List (Fin n))) :
    Search.units (stack.map t.frame) = (stack.map (·.1)).map t.name := by
  rw [Search.units, List.map_map, List.map_map]
  rfl

/-- A search over numbers stands where a search by names stands. -/
inductive Shows (t : Table n) : Scan n → Search → Prop
  | ended (cycle : Option (List String)) : t.Shows (.ended cycle) (.over cycle)
  | going (stack : List (Fin n × List (Fin n))) (roots : List (Fin n)) {marks : Fin n → Mark} {done : List String}
      (h : t.Marked (stack.map (·.1)) marks done) :
      t.Shows (.going stack roots marks) (.going (stack.map t.frame) (roots.map t.name) done)

theorem Of.shows_start (h : t.Of g) : t.Shows t.start (.start g) := by
  rw [Search.start, ← h.map_roots]
  exact .going [] _ (.start t)

theorem Of.shows_push (ht : t.Of g) (stack : List (Fin n × List (Fin n))) (roots : List (Fin n))
    (h : t.Marked (stack.map (·.1)) marks done) (hi : marks i = .fresh) :
    t.Shows (.going (t.push i stack) roots (Function.update marks i .onPath))
      (.going (Search.push g (t.name i) (stack.map t.frame)) (roots.map t.name) done) := by
  rw [Search.push, ← ht.map_targets]
  exact .going (t.push i stack) roots (h.push hi)

theorem Shows.step (ht : t.Of g) (h : t.Shows s x) : t.Shows (t.step s) (Search.step g x) := by
  cases h with
  | ended cycle => exact .ended cycle
  | @going stack roots marks done h =>
    cases stack with
    | nil =>
      cases roots with
      | nil => exact .ended none
      | cons root roots =>
        simp only [Table.step, List.map_nil, List.map_cons, Search.step]
        cases hmark : marks root with
        | fresh =>
          rw [if_pos rfl, if_neg (h.of_fresh hmark).2]
          exact ht.shows_push [] roots h hmark
        | onPath => exact absurd ((h.onPath root).mp hmark) List.not_mem_nil
        | finished =>
          rw [if_neg (by decide), if_pos ((h.finished root).mp hmark)]
          exact .going [] roots h
    | cons top stack =>
      obtain ⟨i, pending⟩ := top
      cases pending with
      | nil => exact .going stack roots (h.finish ht.injective)
      | cons j pending =>
        have h : t.Marked (i :: stack.map (·.1)) marks done := h
        have hpath : t.name j ∈ t.name i :: Search.units (stack.map t.frame) ↔ j ∈ i :: stack.map (·.1) := by
          rw [units_map_frame, ← List.map_cons, List.mem_map_of_injective ht.injective]
        simp only [Table.step, List.map_cons, frame, Search.step, hpath]
        cases hmark : marks j with
        | fresh =>
          obtain ⟨hnot, hdone⟩ := h.of_fresh hmark
          rw [if_neg hnot, if_neg hdone]
          exact ht.shows_push ((i, pending) :: stack) roots h hmark
        | onPath =>
          have hmem := (h.onPath j).mp hmark
          rw [if_pos hmem, ht.cycleFrom_eq h.nodup hmem, units_map_frame]
          exact .ended _
        | finished =>
          have hnot : j ∉ i :: stack.map (·.1) := fun hmem => by
            rw [(h.onPath j).mpr hmem] at hmark
            cases hmark
          rw [if_neg hnot, if_pos ((h.finished j).mp hmark)]
          exact .going ((i, pending) :: stack) roots h

theorem Shows.iterate (ht : t.Of g) (h : t.Shows s x) (k : Nat) :
    t.Shows (t.step^[k] s) ((Search.step g)^[k] x) := by
  induction k generalizing s x with
  | zero => exact h
  | succ k ih =>
    rw [Function.iterate_succ_apply, Function.iterate_succ_apply]
    exact ih (h.step ht)

/-- The search over numbers ends with the cycle that the search by names reports. -/
theorem Of.finds_cycle? (h : t.Of g) : t.Finds g.cycle? := by
  obtain ⟨k, hk⟩ := Search.leads_cycle? g
  have hlast := h.shows_start.iterate h k
  rw [hk] at hlast
  cases hlast' : t.step^[k] t.start with
  | going stack roots marks =>
    rw [hlast'] at hlast
    cases hlast
  | ended cycle =>
    rw [hlast'] at hlast
    cases hlast
    exact ⟨k, hlast'⟩

theorem Finds.unique {cycle cycle' : Option (List String)} (h : t.Finds cycle) (h' : t.Finds cycle') :
    cycle = cycle' := by
  have hstays : ∀ (k : Nat) c, t.step^[k] (.ended c) = .ended c := fun k c => Function.iterate_fixed rfl k
  obtain ⟨k, hk⟩ := h
  obtain ⟨k', hk'⟩ := h'
  have hboth : t.step^[k' + k] t.start = t.step^[k + k'] t.start := by rw [Nat.add_comm]
  rw [Function.iterate_add_apply, Function.iterate_add_apply, hk, hk', hstays, hstays] at hboth
  cases hboth
  rfl

end Table
end BuildCache.Graph
