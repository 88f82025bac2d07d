import Mathlib.Tactic.Common
import BuildCache.Graph.Order
import BuildCache.Proofs.Graph.Acyclic

/-! # Countdowns over a graph: which units are free once some are done

The same bookkeeping carries the search for a build order and the schedule of a build. -/
namespace BuildCache

namespace NameMap

variable {α : Type}

theorem find?_foldl_insert (f : String → α) (names : List String) (m : NameMap α) (n : String) :
    ((names.map fun n => (n, f n)).foldl (fun m e => m.insert e.1 e.2) m).find? n
      = if n ∈ names then some (f n) else m.find? n := by
  induction names generalizing m with
  | nil => simp
  | cons a names ih =>
    rw [List.map_cons, List.foldl_cons, ih, find?_insert]
    by_cases ha : a = n
    · subst ha
      simp
    · have ha' : n ≠ a := fun h => ha h.symm
      simp [ha, ha']

theorem find?_ofList_map (f : String → α) (names : List String) (n : String) :
    (ofList (names.map fun n => (n, f n))).find? n = if n ∈ names then some (f n) else none := by
  rw [ofList, find?_foldl_insert, find?_empty]

end NameMap

namespace Countdown

theorem find?_release {units : List String} (hu : units.Nodup) (c : Countdown) (n : String) :
    (c.release units).1.find? n = if n ∈ units then (c.find? n).map (· - 1) else c.find? n := by
  induction units generalizing c with
  | nil => rfl
  | cons u units ih =>
    obtain ⟨hnot, hu⟩ := List.nodup_cons.mp hu
    rw [release]
    simp only [ih hu, find?_lower]
    by_cases hn : u = n
    · subst hn
      simp [hnot]
    · have hn' : n ≠ u := fun h => hn h.symm
      simp [hn, hn']

private theorem lower_last (c : Countdown) (u : String) : (c.lower u).2 = true ↔ c.find? u = some 1 := by
  simp only [lower]
  split
  · next h => simp [h]
  · next h => simp [h]
  · next n h => simp [h]

theorem mem_freed {units : List String} (hu : units.Nodup) (c : Countdown) (n : String) :
    n ∈ (c.release units).2 ↔ n ∈ units ∧ c.find? n = some 1 := by
  induction units generalizing c with
  | nil => simp [release]
  | cons u units ih =>
    obtain ⟨hnot, hu⟩ := List.nodup_cons.mp hu
    have hrest : n ∈ ((c.lower u).1.release units).2 ↔ n ∈ units ∧ c.find? n = some 1 := by
      rw [ih hu, find?_lower]
      by_cases hn : u = n
      · subst hn
        simp [hnot]
      · simp [hn]
    rw [release]
    by_cases hl : (c.lower u).2
    · have hone := (lower_last c u).mp hl
      simp only [hl, if_true, List.mem_cons, hrest]
      constructor
      · rintro (rfl | h)
        · exact ⟨.inl rfl, hone⟩
        · exact ⟨.inr h.1, h.2⟩
      · rintro ⟨rfl | h, hn⟩
        · exact .inl rfl
        · exact .inr ⟨h, hn⟩
    · have hone : ¬c.find? u = some 1 := fun h => hl ((lower_last c u).mpr h)
      simp only [hl, Bool.false_eq_true, if_false, hrest, List.mem_cons]
      constructor
      · exact fun h => ⟨.inr h.1, h.2⟩
      · rintro ⟨rfl | h, hn⟩
        · exact absurd hn hone
        · exact ⟨h, hn⟩

theorem freed_sublist (c : Countdown) (units : List String) : (c.release units).2.Sublist units := by
  induction units generalizing c with
  | nil => exact .slnil
  | cons u units ih =>
    rw [release]
    by_cases hl : (c.lower u).2
    · simpa [hl] using ih (c.lower u).1
    · simpa [hl] using (ih (c.lower u).1).cons u

end Countdown

namespace Graph

private theorem nodup_sortNames {names : List String} (h : names.Nodup) : (sortNames names).Nodup :=
  (List.mergeSort_perm names _).nodup_iff.mpr h

theorem nodup_successors (g : Graph) (n : String) : (g.successors n).Nodup := by
  refine nodup_sortNames ((g.edges_nodup.filter _).map_on fun a ha b hb h => ?_)
  have ha1 : a.1 = n := by simpa using (List.mem_filter.mp ha).2
  have hb1 : b.1 = n := by simpa using (List.mem_filter.mp hb).2
  exact Prod.ext (ha1.trans hb1.symm) h

theorem nodup_dependents (g : Graph) (n : String) : (g.dependents n).Nodup := by
  refine nodup_sortNames ((g.edges_nodup.filter _).map_on fun a ha b hb h => ?_)
  have ha2 : a.2 = n := by simpa using (List.mem_filter.mp ha).2
  have hb2 : b.2 = n := by simpa using (List.mem_filter.mp hb).2
  exact Prod.ext h (ha2.trans hb2.symm)

/-- The needs of a unit that are still to come. -/
def owed (g : Graph) (done : List String) (n : String) : List String := (g.successors n).filter (· ∉ done)

@[simp] theorem mem_owed {g : Graph} {done : List String} {n d : String} :
    d ∈ g.owed done n ↔ g.Needs n d ∧ d ∉ done := by simp [owed, Needs]

theorem owed_eq_nil {g : Graph} {done : List String} {n : String} :
    g.owed done n = [] ↔ ∀ d, g.Needs n d → d ∈ done := by
  simp only [List.eq_nil_iff_forall_not_mem, mem_owed, not_and, not_not]

theorem nodup_owed (g : Graph) (done : List String) (n : String) : (g.owed done n).Nodup :=
  (g.nodup_successors n).filter _

theorem owed_append (g : Graph) (done : List String) (d n : String) :
    g.owed (done ++ [d]) n = (g.owed done n).filter (· ≠ d) := by
  simp only [owed, List.filter_filter]
  apply List.filter_congr
  intro a _
  by_cases had : a = d <;> by_cases ha : a ∈ done <;> simp [had, ha]

private theorem length_filter_ne {l : List String} (hl : l.Nodup) (d : String) :
    (l.filter (· ≠ d)).length = if d ∈ l then l.length - 1 else l.length := by
  have he : l.filter (· ≠ d) = l.erase d := by
    rw [hl.erase_eq_filter]
    exact List.filter_congr fun a _ => by by_cases h : a = d <;> simp [h]
  rw [he, List.length_erase]

theorem length_owed_append (g : Graph) {done : List String} {d : String} (hd : d ∉ done) (n : String) :
    (g.owed (done ++ [d]) n).length
      = if n ∈ g.dependents d then (g.owed done n).length - 1 else (g.owed done n).length := by
  rw [owed_append, length_filter_ne (g.nodup_owed done n)]
  simp [hd, Needs]

theorem find?_countdown {g : Graph} {n : String} (hn : n ∈ g.names) :
    g.countdown.find? n = some (g.owed [] n).length := by
  rw [countdown, NameMap.find?_ofList_map, if_pos hn]
  simp [owed, successors, sortNames]

/-- Where a countdown stands: `done` are the units that have come, `taken` those that were picked from
the free ones, and `ready` the free ones that were not. -/
structure Frontier (g : Graph) (c : Countdown) (ready taken done : List String) : Prop where
  counts : ∀ n ∈ g.names, c.find? n = some (g.owed done n).length
  ready_iff : ∀ n, n ∈ ready ↔ n ∈ g.names ∧ n ∉ taken ∧ g.owed done n = []
  ready_nodup : ready.Nodup
  taken_nodup : taken.Nodup
  taken_free : ∀ n ∈ taken, n ∈ g.names ∧ g.owed done n = []
  done_taken : ∀ n ∈ done, n ∈ taken

namespace Frontier

variable {g : Graph} {c : Countdown} {ready taken done : List String}

theorem initial {ready : List String} (hn : ready.Nodup)
    (hr : ∀ n, n ∈ ready ↔ n ∈ g.names ∧ g.countdown.find? n = some 0) :
    g.Frontier g.countdown ready [] [] where
  counts n hn := find?_countdown hn
  ready_iff n := by
    rw [hr]
    constructor
    · rintro ⟨hn, hz⟩
      rw [find?_countdown hn, Option.some.injEq, List.length_eq_zero_iff] at hz
      exact ⟨hn, List.not_mem_nil, hz⟩
    · rintro ⟨hn, -, hz⟩
      exact ⟨hn, by rw [find?_countdown hn, hz]; rfl⟩
  ready_nodup := hn
  taken_nodup := .nil
  taken_free := by simp
  done_taken := by simp

theorem perm (h : g.Frontier c ready taken done) {ready' : List String} (hp : ready'.Perm ready) :
    g.Frontier c ready' taken done where
  counts := h.counts
  ready_iff n := by rw [hp.mem_iff, h.ready_iff]
  ready_nodup := hp.nodup_iff.mpr h.ready_nodup
  taken_nodup := h.taken_nodup
  taken_free := h.taken_free
  done_taken := h.done_taken

theorem take (h : g.Frontier c ready taken done) {n : String} (hn : n ∈ ready) :
    g.Frontier c (ready.erase n) (taken ++ [n]) done where
  counts := h.counts
  ready_iff m := by
    rw [h.ready_nodup.mem_erase_iff, h.ready_iff, List.mem_append, List.mem_singleton]
    tauto
  ready_nodup := h.ready_nodup.erase n
  taken_nodup := by
    have hnot : n ∉ taken := ((h.ready_iff n).mp hn).2.1
    rw [List.nodup_append]
    refine ⟨h.taken_nodup, by simp, fun a ha b hb hab => ?_⟩
    rw [List.mem_singleton] at hb
    exact hnot (hb ▸ hab ▸ ha)
  taken_free m hm := by
    rcases List.mem_append.mp hm with hm | hm
    · exact h.taken_free m hm
    · rw [List.mem_singleton] at hm
      have := (h.ready_iff n).mp hn
      exact hm ▸ ⟨this.1, this.2.2⟩
  done_taken m hm := List.mem_append_left _ (h.done_taken m hm)

theorem count_pos (h : g.Frontier c ready taken done) {d : String} (hd : d ∉ done) {n : String}
    (hn : n ∈ g.dependents d) : ∃ k, c.find? n = some (k + 1) := by
  have hneeds : g.Needs n d := mem_dependents.mp hn
  have hmem : d ∈ g.owed done n := mem_owed.mpr ⟨hneeds, hd⟩
  have hpos := List.length_pos_of_mem hmem
  refine ⟨(g.owed done n).length - 1, ?_⟩
  rw [h.counts n hneeds.left_mem]
  congr 1
  omega

private theorem mem_freed (h : g.Frontier c ready taken done) {d : String} (hd : d ∉ done) (n : String) :
    n ∈ (c.release (g.dependents d)).2 ↔ n ∈ g.names ∧ g.owed done n ≠ [] ∧
      g.owed (done ++ [d]) n = [] := by
  rw [Countdown.mem_freed (g.nodup_dependents d), ← List.length_eq_zero_iff, g.length_owed_append hd]
  constructor
  · rintro ⟨hn, hc⟩
    have hneeds : g.Needs n d := mem_dependents.mp hn
    rw [h.counts n hneeds.left_mem, Option.some.injEq] at hc
    refine ⟨hneeds.left_mem, fun he => ?_, by simp [hn, hc]⟩
    rw [he] at hc
    cases hc
  · rintro ⟨hk, hne, hz⟩
    have hpos := List.length_pos_iff.mpr hne
    by_cases hn : n ∈ g.dependents d
    · rw [if_pos hn] at hz
      refine ⟨hn, ?_⟩
      rw [h.counts n hk]
      congr 1
      omega
    · rw [if_neg hn] at hz
      omega

theorem finish (h : g.Frontier c ready taken done) {d : String} (ht : d ∈ taken) (hd : d ∉ done) :
    g.Frontier (c.release (g.dependents d)).1 (ready ++ (c.release (g.dependents d)).2) taken
      (done ++ [d]) where
  counts n hn := by
    rw [Countdown.find?_release (g.nodup_dependents d), g.length_owed_append hd, h.counts n hn]
    split <;> rfl
  ready_iff n := by
    rw [List.mem_append, h.ready_iff, h.mem_freed hd]
    constructor
    · rintro (⟨hn, ht, ho⟩ | ⟨hn, hne, ho⟩)
      · refine ⟨hn, ht, ?_⟩
        rw [owed_append, ho]
        rfl
      · exact ⟨hn, fun ht => hne (h.taken_free n ht).2, ho⟩
    · rintro ⟨hn, ht, ho⟩
      by_cases hz : g.owed done n = []
      · exact .inl ⟨hn, ht, hz⟩
      · exact .inr ⟨hn, hz, ho⟩
  ready_nodup := by
    rw [List.nodup_append]
    refine ⟨h.ready_nodup, (g.nodup_dependents d).sublist (c.freed_sublist _), ?_⟩
    rintro n hn _ hm rfl
    exact ((h.mem_freed hd n).mp hm).2.1 ((h.ready_iff n).mp hn).2.2
  taken_nodup := h.taken_nodup
  taken_free n hn := by
    refine ⟨(h.taken_free n hn).1, ?_⟩
    rw [owed_append, (h.taken_free n hn).2]
    rfl
  done_taken n hn := by
    rcases List.mem_append.mp hn with hn | hn
    · exact h.done_taken n hn
    · rw [List.mem_singleton] at hn
      exact hn ▸ ht

/-- As long as not all is done, some unit is free or was taken and has not come yet. -/
theorem progress (h : g.Frontier c ready taken done) (ha : g.Acyclic) {n : String} (hn : n ∈ g.names)
    (hd : n ∉ done) : (∃ m, m ∈ ready) ∨ ∃ m ∈ taken, m ∉ done := by
  obtain ⟨m, ⟨hm, hmd⟩, hleast⟩ := ha.exists_least (P := fun m => m ∈ g.names ∧ m ∉ done) ⟨hn, hd⟩
  have ho : g.owed done m = [] := by
    apply owed_eq_nil.mpr
    intro d hneeds
    by_contra hnot
    exact hleast d hneeds ⟨hneeds.right_mem, hnot⟩
  by_cases ht : m ∈ taken
  · exact .inr ⟨m, ht, hmd⟩
  · exact .inl ⟨m, (h.ready_iff m).mpr ⟨hm, ht, ho⟩⟩

end Frontier
end Graph
end BuildCache
