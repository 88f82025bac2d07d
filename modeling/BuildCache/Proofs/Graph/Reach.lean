import BuildCache.Proofs.Graph.Frontier

/-! # Transitive dependents: exactly the units from which a unit is reached -/
namespace BuildCache.Graph

/-- A unit needs another one, directly or through others. -/
def Reaches (g : Graph) : String → String → Prop := Relation.TransGen g.Needs

theorem mem_above {g : Graph} {unit n : String} {units : List String} :
    n ∈ g.above unit units ↔ n ∈ units ∧ g.Needs n unit := by simp [above, Needs]

theorem mem_notAbove {g : Graph} {unit n : String} {units : List String} :
    n ∈ g.notAbove unit units ↔ n ∈ units ∧ ¬g.Needs n unit := by simp [notAbove, Needs]

theorem reached_sound {g : Graph} {start : String} {rest todo : List String}
    (ht : ∀ m ∈ todo, Relation.ReflTransGen g.Needs m start) :
    ∀ n ∈ g.reached rest todo, g.Reaches n start := by
  fun_induction reached g rest todo with
  | case1 => simp
  | case2 rest m todo ih =>
    have hm := ht m List.mem_cons_self
    have habove : ∀ n ∈ g.above m rest, g.Reaches n start := fun n hn =>
      Relation.TransGen.head' (mem_above.mp hn).2 hm
    intro n hn
    rcases List.mem_append.mp hn with hn | hn
    · exact habove n hn
    · refine ih (fun a ha => ?_) n hn
      rcases List.mem_append.mp ha with ha | ha
      · exact (habove a ha).to_reflTransGen
      · exact ht a (List.mem_cons_of_mem _ ha)

/-- Nothing is missed: what needs a unit to be expanded, or one that is found, is found unless it
was marked. -/
theorem reached_closed {g : Graph} {rest todo : List String} {n m : String} (hn : n ∈ rest)
    (hneeds : g.Needs n m) (hm : m ∈ todo ∨ m ∈ g.reached rest todo) : n ∈ g.reached rest todo := by
  fun_induction reached g rest todo with
  | case1 => simp at hm
  | case2 rest u todo ih =>
    rw [List.mem_append]
    by_cases hu : g.Needs n u
    · exact .inl (mem_above.mpr ⟨hn, hu⟩)
    · refine .inr (ih (mem_notAbove.mpr ⟨hn, hu⟩) ?_)
      rw [List.mem_append]
      rcases hm with hm | hm
      · rcases List.mem_cons.mp hm with rfl | hm
        · exact absurd hneeds hu
        · exact .inl (.inr hm)
      · rcases List.mem_append.mp hm with hm | hm
        · exact .inl (.inl hm)
        · exact .inr hm

theorem mem_transitiveDependents {g : Graph} {n d : String} (hd : d ∈ g.names) :
    n ∈ g.transitiveDependents d ↔ g.Reaches n d := by
  rw [transitiveDependents, if_pos hd, mem_sortNames]
  constructor
  · refine reached_sound (fun m hm => ?_) n
    rw [List.mem_singleton] at hm
    exact hm ▸ .refl
  · intro h
    refine Relation.TransGen.head_induction_on h (fun hb => ?_) fun hb hrest ih => ?_
    · exact reached_closed hb.left_mem hb (.inl (List.mem_singleton_self d))
    · exact reached_closed hb.left_mem hb (.inr ih)

end BuildCache.Graph
