import BuildCache.Proofs.Bytes
import BuildCache.Proofs.Graph.Cycle
import BuildCache.Proofs.Graph.Order

/-! # The least build order: of all orders, the one that comes first by names -/
namespace BuildCache

namespace Countdown

/-- Each count is above zero when it is lowered. -/
def Lowers (c : Countdown) : (units : List String) → Prop
  | [] => True
  | unit :: rest => (∃ k, c.find? unit = some (k + 1)) ∧ (c.lower unit).1.Lowers rest

theorem lowers {units : List String} {c : Countdown} (hu : units.Nodup)
    (h : ∀ n ∈ units, ∃ k, c.find? n = some (k + 1)) : c.Lowers units := by
  induction units generalizing c with
  | nil => trivial
  | cons u units ih =>
    obtain ⟨hnot, hu⟩ := List.nodup_cons.mp hu
    refine ⟨h u List.mem_cons_self, ih hu fun n hn => ?_⟩
    have hne : u ≠ n := fun he => hnot (he ▸ hn)
    rw [find?_lower, if_neg hne]
    exact h n (List.mem_cons_of_mem _ hn)

end Countdown

namespace Graph

/-- An order in which the units can be built: each one once, behind all that it needs. -/
def IsOrder (g : Graph) (order : List String) : Prop := order.Perm g.names ∧ g.Ordered [] order

/-- One order comes before another: at the first place where they differ, its name has the lesser bytes. -/
def Precedes : (first second : List String) → Prop := List.Lex fun a b => Bytes.ofText a < Bytes.ofText b

/-- The ready units are placed until none is ready. Each placed unit lowers the counts of its
dependents, and in whatever order they come, none of them is at zero. -/
inductive Places (g : Graph) : Countdown → (ready order : List String) → Prop
  | nil {c : Countdown} : g.Places c [] []
  | next {c : Countdown} {unit : String} {ready order : List String}
      (lowers : ∀ units, units.Perm (g.dependents unit) → c.Lowers units)
      (rest : g.Places (c.release (g.dependents unit)).1
        ((c.release (g.dependents unit)).2.foldr placeName ready) order) :
      g.Places c (unit :: ready) (unit :: order)

theorem pairwise_sortNames (names : List String) : (sortNames names).Pairwise (· ≤ ·) := by
  have htrans : ∀ a b c : String, decide (a ≤ b) = true → decide (b ≤ c) = true → decide (a ≤ c) = true :=
    fun a b c hab hbc => decide_eq_true (String.le_trans (of_decide_eq_true hab) (of_decide_eq_true hbc))
  have htotal : ∀ a b : String, (decide (a ≤ b) || decide (b ≤ a)) = true := fun a b => by
    simpa using String.le_total a b
  simpa [sortNames] using List.pairwise_mergeSort htrans htotal names

theorem pairwise_placeName {names : List String} (h : names.Pairwise (· ≤ ·)) (name : String) :
    (placeName name names).Pairwise (· ≤ ·) := by
  induction names with
  | nil => exact List.pairwise_singleton _ _
  | cons n rest ih =>
    obtain ⟨hn, hrest⟩ := List.pairwise_cons.mp h
    rw [placeName]
    split
    · next hle =>
      refine List.pairwise_cons.mpr ⟨fun m hm => ?_, h⟩
      rcases List.mem_cons.mp hm with rfl | hm
      · exact hle
      · exact String.le_trans hle (hn m hm)
    · next hle =>
      refine List.pairwise_cons.mpr ⟨fun m hm => ?_, ih hrest⟩
      rcases List.mem_cons.mp ((placeName_perm name rest).mem_iff.mp hm) with rfl | hm
      · exact (String.le_total n m).resolve_right hle
      · exact hn m hm

theorem pairwise_foldr_placeName {ready : List String} (h : ready.Pairwise (· ≤ ·)) (freed : List String) :
    (freed.foldr placeName ready).Pairwise (· ≤ ·) := by
  induction freed with
  | nil => exact h
  | cons n freed ih => exact pairwise_placeName ih n

variable {g : Graph} {c : Countdown} {ready placed : List String}

theorem places_placeReady {fuel : Nat} (h : g.Frontier c ready placed placed)
    (hf : placed.length + fuel = g.size) : g.Places c ready (g.placeReady fuel c ready) := by
  induction fuel generalizing c ready placed with
  | zero =>
    cases ready with
    | nil => exact .nil
    | cons n ready =>
      obtain ⟨hn, hnot, -⟩ := (h.ready_iff n).mp List.mem_cons_self
      have hsub : (n :: placed).Subperm g.names := by
        refine (List.nodup_cons.mpr ⟨hnot, h.taken_nodup⟩).subperm fun m hm => ?_
        rcases List.mem_cons.mp hm with rfl | hm
        · exact hn
        · exact (h.taken_free m hm).1
      have hlength := hsub.length_le
      rw [names, List.length_map, ← size, List.length_cons] at hlength
      omega
  | succ fuel ih =>
    cases ready with
    | nil => exact .nil
    | cons n ready =>
      obtain ⟨-, hnot, -⟩ := (h.ready_iff n).mp List.mem_cons_self
      refine .next (fun units hu => ?_) (ih h.place (by simp; omega))
      exact Countdown.lowers (hu.nodup_iff.mpr (g.nodup_dependents n)) fun m hm =>
        h.count_pos hnot (hu.mem_iff.mp hm)

/-- Where an order goes on with another unit than the one placed, that unit is ready as well and its
name is greater. -/
theorem Places.least {order : List String} (hp : g.Places c ready order) (h : g.Frontier c ready placed placed)
    (hs : ready.Pairwise (· ≤ ·)) (ha : g.Acyclic) {other : List String}
    (hperm : (placed ++ other).Perm g.names) (hord : g.Ordered placed other) :
    other = order ∨ Precedes order other := by
  induction hp generalizing placed other with
  | nil =>
    have hlength := hperm.length_eq.trans (h.complete ha).length_eq.symm
    rw [List.length_append] at hlength
    exact .inl (List.eq_nil_of_length_eq_zero (by omega))
  | @next c unit ready order _ _ ih =>
    obtain ⟨hunit, hnot, -⟩ := (h.ready_iff unit).mp List.mem_cons_self
    cases other with
    | nil =>
      rw [List.append_nil] at hperm
      exact absurd (hperm.mem_iff.mpr hunit) hnot
    | cons m other =>
      by_cases hm : m = unit
      · subst hm
        have hsorted := pairwise_foldr_placeName (List.pairwise_cons.mp hs).2 (c.release (g.dependents m)).2
        rcases ih h.place hsorted (by simpa using hperm) hord.2 with rfl | hlex
        · exact .inl rfl
        · exact .inr (.cons hlex)
      · have hnodup := hperm.nodup_iff.mpr g.names_nodup
        have hfresh : m ∉ placed := fun hin =>
          (List.nodup_append.mp hnodup).2.2 m hin m List.mem_cons_self rfl
        have hready : m ∈ unit :: ready :=
          (h.ready_iff m).mpr ⟨hperm.mem_iff.mp (by simp), hfresh, owed_eq_nil.mpr hord.1⟩
        have hle : unit ≤ m :=
          (List.pairwise_cons.mp hs).1 m ((List.mem_cons.mp hready).resolve_left hm)
        exact .inr (.rel (Bytes.ofText_lt_iff.mpr (lt_of_le_of_ne hle (Ne.symm hm))))

/-- There is a build order unless a unit reaches itself, and then the error has the cycle that the
search reports. It is the first one of all orders, and no count is lowered below zero on the way to it. -/
theorem order_least (g : Graph) :
    ((∃ order, g.order = .ok order) ↔ ∀ n, ¬g.Reaches n n) ∧
    match g.order with
    | .ok order =>
      g.IsOrder order ∧ (∀ other, g.IsOrder other → other = order ∨ Precedes order other) ∧
        g.Places g.countdown (sortNames (g.names.filter fun n => g.countdown.find? n = some 0)) order
    | .error e => ∃ path, g.cycle? = some path ∧ e = .cyclicDependency path := by
  rw [← cycle?_eq_none_iff, order]
  cases hc : g.cycle? with
  | some path =>
    refine ⟨⟨fun hsome => ?_, fun hnone => ?_⟩, path, rfl, rfl⟩
    · obtain ⟨order, herror⟩ := hsome
      cases herror
    · cases hnone
  | none =>
    have ha := acyclic_of_cycle?_eq_none hc
    have hfrontier := g.frontier_countdown
    obtain ⟨hperm, hord⟩ := placeReady_spec ha hfrontier (Nat.zero_add g.size)
    have hplaces := places_placeReady hfrontier (Nat.zero_add g.size)
    refine ⟨⟨fun _ => rfl, fun _ => ⟨_, rfl⟩⟩, ⟨hperm, hord⟩, fun other hother => ?_, hplaces⟩
    exact hplaces.least hfrontier (pairwise_sortNames _) ha hother.1 hother.2

/-- Both `c` and `b` can begin, and each one frees a unit. -/
def forked : Graph where
  sources := [⟨"c", [], []⟩, ⟨"a", [], ["c"]⟩, ⟨"b", [], []⟩, ⟨"d", [], ["b"]⟩]
  edges := [("a", "c"), ("d", "b")]
  names_nodup := by decide
  edges_nodup := by decide
  edges_known := by decide

theorem order_least_forked : forked.order = .ok ["b", "c", "a", "d"] ∧
    forked.IsOrder ["c", "a", "b", "d"] ∧ Precedes ["b", "c", "a", "d"] ["c", "a", "b", "d"] := by
  have horder : forked.order = .ok ["b", "c", "a", "d"] := by cbv
  have hother : forked.IsOrder ["c", "a", "b", "d"] := ⟨by decide, by simp [Ordered, Needs, forked]⟩
  have hspec := (order_least forked).2
  rw [horder] at hspec
  exact ⟨horder, hother, (hspec.2.1 _ hother).resolve_left (by decide)⟩

end Graph
end BuildCache
