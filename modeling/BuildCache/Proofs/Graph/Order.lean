import BuildCache.Proofs.Graph.Frontier

/-! # Build orders: each unit once, behind all that it needs -/
namespace BuildCache.Graph

/-- Each unit of an order stands behind what it needs, of which some may be done beforehand. -/
def Ordered (g : Graph) : (done order : List String) → Prop
  | _, [] => True
  | done, n :: rest => (∀ d, g.Needs n d → d ∈ done) ∧ g.Ordered (done ++ [n]) rest

theorem placeName_perm (name : String) (names : List String) : (placeName name names).Perm
    (name :: names) := by
  induction names with
  | nil => exact .refl _
  | cons n rest ih =>
    simp only [placeName]
    split
    · exact .refl _
    · exact (ih.cons n).trans (.swap name n rest)

theorem foldr_placeName_perm (freed ready : List String) : (freed.foldr placeName ready).Perm
    (ready ++ freed) := by
  induction freed with
  | nil => simp
  | cons n freed ih => exact (placeName_perm n _).trans ((ih.cons n).trans List.perm_middle.symm)

/-- Placing the first ready unit is to take it and to have it done at once. -/
theorem Frontier.place {g : Graph} {c : Countdown} {ready placed : List String} {n : String}
    (h : g.Frontier c (n :: ready) placed placed) :
    g.Frontier (c.release (g.dependents n)).1 ((c.release (g.dependents n)).2.foldr placeName ready)
      (placed ++ [n]) (placed ++ [n]) := by
  have hn : n ∉ placed := ((h.ready_iff n).mp List.mem_cons_self).2.1
  have ht := (h.take List.mem_cons_self).finish (List.mem_append_right _ List.mem_cons_self) hn
  rw [List.erase_cons_head] at ht
  exact ht.perm (foldr_placeName_perm _ _)

theorem Frontier.complete {g : Graph} {c : Countdown} {placed : List String} (ha : g.Acyclic)
    (h : g.Frontier c [] placed placed) : placed.Perm g.names := by
  refine (List.perm_ext_iff_of_nodup h.taken_nodup g.names_nodup).mpr fun n =>
    ⟨fun hn => (h.taken_free n hn).1, ?_⟩
  intro hn
  by_contra hd
  obtain ⟨m, hm⟩ | ⟨m, hm, hd⟩ := h.progress ha hn hd
  · cases hm
  · exact hd hm

theorem placeReady_spec {g : Graph} (ha : g.Acyclic) {fuel : Nat} {c : Countdown}
    {ready placed : List String}
    (h : g.Frontier c ready placed placed) (hf : placed.length + fuel = g.size) :
    (placed ++ g.placeReady fuel c ready).Perm g.names ∧ g.Ordered placed
      (g.placeReady fuel c ready) := by
  induction fuel generalizing c ready placed with
  | zero =>
    have hsub : placed.Subperm g.names := h.taken_nodup.subperm fun n hn => (h.taken_free n hn).1
    have hlen : g.names.length ≤ placed.length := by
      rw [names, List.length_map, ← size, ← hf, Nat.add_zero]
    rw [placeReady, List.append_nil]
    exact ⟨hsub.perm_of_length_le hlen, trivial⟩
  | succ fuel ih =>
    cases ready with
    | nil =>
      rw [placeReady, List.append_nil]
      · exact ⟨h.complete ha, trivial⟩
      · intro h
        cases h
    | cons n ready =>
      have hn := (h.ready_iff n).mp List.mem_cons_self
      have hlen : (placed ++ [n]).length + fuel = g.size := by
        rw [List.length_append, List.length_singleton]
        omega
      obtain ⟨hperm, hord⟩ := ih h.place hlen
      rw [placeReady]
      refine ⟨by simpa using hperm, owed_eq_nil.mp hn.2.2, hord⟩

theorem frontier_countdown (g : Graph) :
    g.Frontier g.countdown (sortNames (g.names.filter fun n => g.countdown.find? n = some 0)) [] [] := by
  refine .initial ((List.mergeSort_perm _ _).nodup_iff.mpr (g.names_nodup.filter _)) fun n => ?_
  rw [mem_sortNames, List.mem_filter, decide_eq_true_eq]

theorem order_ok {g : Graph} {l : List String} (h : g.order = .ok l) :
    g.Acyclic ∧ l.Perm g.names ∧ g.Ordered [] l := by
  simp only [order] at h
  cases hc : g.cycle? with
  | some path =>
    rw [hc] at h
    cases h
  | none =>
    rw [hc] at h
    cases h
    have ha := acyclic_of_cycle?_eq_none hc
    obtain ⟨hperm, hord⟩ := placeReady_spec ha g.frontier_countdown (Nat.zero_add g.size)
    exact ⟨ha, hperm, hord⟩

end BuildCache.Graph
