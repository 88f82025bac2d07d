import BuildCache.Proofs.Graph.Least

/-! # Dependents by name, each one once: however a walk up the edges goes, it ends, and with the same units -/
namespace BuildCache.Graph

variable {g : Graph} {n m name unit : String} {todo todo' found found' names rest : List String}

/-- Names in the order of their bytes, none of them twice. -/
def Ascending (names : List String) : Prop := names.Pairwise fun a b => Bytes.ofText a < Bytes.ofText b

theorem ascending_sortNames (h : names.Nodup) : Ascending (sortNames names) := by
  have hnodup : (sortNames names).Nodup := (List.mergeSort_perm _ _).nodup_iff.mpr h
  refine ((pairwise_sortNames names).and hnodup).imp fun hab => ?_
  exact Bytes.ofText_lt_iff.mpr (lt_of_le_of_ne hab.1 hab.2)

theorem sortNames_eq_self (h : names.Pairwise (· ≤ ·)) : sortNames names = names :=
  List.mergeSort_of_pairwise (h.imp decide_eq_true)

theorem sortNames_congr {names' : List String} (h : names.Nodup) (h' : names'.Nodup)
    (hsame : ∀ n, n ∈ names ↔ n ∈ names') : sortNames names = sortNames names' := by
  have hperm : (sortNames names).Perm (sortNames names') :=
    (List.mergeSort_perm _ _).trans
      (((List.perm_ext_iff_of_nodup h h').mpr hsame).trans (List.mergeSort_perm _ _).symm)
  exact hperm.eq_of_pairwise (fun _ _ _ _ => String.le_antisymm) (pairwise_sortNames _) (pairwise_sortNames _)

theorem ascending_dependents (g : Graph) (name : String) : Ascending (g.dependents name) := by
  have hnodup : ((g.edges.filter (·.2 = name)).map (·.1)).Nodup :=
    (List.mergeSort_perm _ _).nodup_iff.mp (g.nodup_dependents name)
  exact ascending_sortNames hnodup

/-- Where a walk stands: the units that are still to be expanded, and those that were found. -/
structure Walk where
  todo : List String
  found : List String

/-- Some unit is expanded: of its dependents those are found that were not yet. They are to be expanded
as well, and all of this in any order. -/
inductive Expands (g : Graph) : Walk → Walk → Prop
  | mk {todo found rest fresh todo' : List String} {unit : String} (pick : todo.Perm (unit :: rest))
      (find : fresh.Perm ((g.dependents unit).filter (· ∉ found))) (next : todo'.Perm (fresh ++ rest)) :
      g.Expands ⟨todo, found⟩ ⟨todo', found ++ fresh⟩

/-- A walk goes on for some units. -/
def Walks (g : Graph) : Walk → Walk → Prop := Relation.ReflTransGen g.Expands

def missing (g : Graph) (found : List String) : List String := g.names.filter (· ∉ found)

theorem length_missing_add (g : Graph) {fresh : List String}
    (h : fresh.Perm ((g.dependents unit).filter (· ∉ found))) :
    (g.missing (found ++ fresh)).length + fresh.length = (g.missing found).length := by
  have hsplit : (g.missing found).Perm (fresh ++ g.missing (found ++ fresh)) := by
    have hfresh : fresh.Nodup := h.nodup_iff.mpr ((g.nodup_dependents unit).filter _)
    refine (List.perm_ext_iff_of_nodup (g.names_nodup.filter _) ?_).mpr fun n => ?_
    · refine hfresh.append (g.names_nodup.filter _) fun n hn hn' => ?_
      have hnot := of_decide_eq_true (List.mem_filter.mp hn').2
      exact hnot (List.mem_append_right _ hn)
    · have hknown : n ∈ fresh → n ∈ g.names ∧ n ∉ found := fun hn => by
        obtain ⟨hdep, hnot⟩ := List.mem_filter.mp (h.mem_iff.mp hn)
        exact ⟨(g.edges_known _ (mem_dependents.mp hdep)).1, of_decide_eq_true hnot⟩
      simp only [missing, List.mem_append, List.mem_filter, decide_eq_true_eq, not_or]
      tauto
  rw [hsplit.length_eq, List.length_append, Nat.add_comm]

/-- Each unit is found once, and what is to be expanded was found, so every walk ends. -/
theorem wellFounded_expands (g : Graph) : WellFounded fun w' w => g.Expands w w' := by
  refine Subrelation.wf (r := InvImage (· < ·) fun w => 2 * (g.missing w.found).length + w.todo.length) ?_
    (InvImage.wf _ Nat.lt_wfRel.wf)
  rintro _ _ ⟨hpick, hfind, hnext⟩
  have hmissing := g.length_missing_add hfind
  have htodo := hpick.length_eq
  have htodo' := hnext.length_eq
  rw [List.length_cons] at htodo
  rw [List.length_append] at htodo'
  simp only [InvImage]
  omega

theorem exists_expands (h : todo ≠ []) : ∃ w, g.Expands ⟨todo, found⟩ w := by
  obtain ⟨unit, rest, rfl⟩ := List.exists_cons_of_ne_nil h
  exact ⟨_, .mk (.refl _) (.refl _) (.refl _)⟩

/-- On the way from a unit, what was found reaches it; what needs it, or a unit that was found, was found
too, but for the units that are still to be expanded. -/
structure Kept (g : Graph) (name : String) (w : Walk) : Prop where
  nodup : w.found.Nodup
  sound : ∀ n ∈ w.found, g.Reaches n name
  rooted : ∀ n ∈ w.todo, n = name ∨ n ∈ w.found
  closed : ∀ m, m = name ∨ m ∈ w.found → m ∉ w.todo → ∀ n, g.Needs n m → n ∈ w.found

theorem Kept.start (g : Graph) (name : String) : g.Kept name ⟨[name], []⟩ where
  nodup := List.nodup_nil
  sound := fun _ hn => absurd hn List.not_mem_nil
  rooted := fun _ hn => .inl (List.mem_singleton.mp hn)
  closed := by
    rintro m (rfl | hm) hnot
    · exact absurd (List.mem_singleton_self m) hnot
    · exact absurd hm List.not_mem_nil

theorem Kept.step {w w' : Walk} (h : g.Kept name w) (hstep : g.Expands w w') : g.Kept name w' := by
  obtain @⟨todo, found, rest, fresh, todo', unit, hpick, hfind, hnext⟩ := hstep
  have hfresh : ∀ n, n ∈ fresh ↔ g.Needs n unit ∧ n ∉ found := fun n => by
    rw [hfind.mem_iff, List.mem_filter, mem_dependents, decide_eq_true_eq, Needs]
  have hunit : unit = name ∨ unit ∈ found := h.rooted unit (hpick.mem_iff.mpr List.mem_cons_self)
  refine ⟨?_, fun n hn => ?_, fun n hn => ?_, fun m hm hnot n hneeds => ?_⟩
  · refine h.nodup.append (hfind.nodup_iff.mpr ((g.nodup_dependents unit).filter _)) fun n hn hn' => ?_
    exact ((hfresh n).mp hn').2 hn
  · rcases List.mem_append.mp hn with hold | hnew
    · exact h.sound n hold
    · have hneeds := ((hfresh n).mp hnew).1
      rcases hunit with rfl | hfound
      · exact .single hneeds
      · exact .head hneeds (h.sound unit hfound)
  · rcases List.mem_append.mp (hnext.mem_iff.mp hn) with hnew | hold
    · exact .inr (List.mem_append_right _ hnew)
    · exact (h.rooted n (hpick.mem_iff.mpr (List.mem_cons_of_mem _ hold))).imp_right (List.mem_append_left _)
  · rw [List.mem_append]
    by_cases hm' : m = unit
    · -- the unit was expanded just now
      subst hm'
      by_cases hin : n ∈ found
      · exact .inl hin
      · exact .inr ((hfresh n).mpr ⟨hneeds, hin⟩)
    · have hleft : m ∉ fresh ∧ m ∉ rest := by
        rwa [hnext.mem_iff, List.mem_append, not_or] at hnot
      have hold : m = name ∨ m ∈ found := hm.imp_right fun hmem =>
        (List.mem_append.mp hmem).resolve_right hleft.1
      refine .inl (h.closed m hold (fun hin => ?_) n hneeds)
      rcases List.mem_cons.mp (hpick.mem_iff.mp hin) with he | hrest
      · exact hm' he
      · exact hleft.2 hrest

theorem Kept.walks {w w' : Walk} (h : g.Kept name w) (hw : g.Walks w w') : g.Kept name w' := by
  induction hw with
  | refl => exact h
  | tail _ hstep ih => exact ih.step hstep

/-- Where nothing is left to expand, all units that reach the start were found. -/
theorem Kept.mem_iff (h : g.Kept name ⟨[], found⟩) : n ∈ found ↔ g.Reaches n name := by
  refine ⟨h.sound n, fun hreaches => ?_⟩
  refine Relation.TransGen.head_induction_on hreaches (fun hb => ?_) fun hb _ ih => ?_
  · exact h.closed name (.inl rfl) List.not_mem_nil _ hb
  · exact h.closed _ (.inr ih) List.not_mem_nil _ hb

/-- Of the units left, those that depend on one are its dependents that were not found. -/
theorem above_missing_perm (g : Graph) (unit : String) (found : List String) :
    (g.above unit (g.missing found)).Perm ((g.dependents unit).filter (· ∉ found)) := by
  refine (List.perm_ext_iff_of_nodup ((g.names_nodup.filter _).filter _)
    ((g.nodup_dependents unit).filter _)).mpr fun n => ?_
  have hknown : g.Needs n unit → n ∈ g.names := Needs.left_mem
  change n ∈ g.above unit (g.missing found) ↔ _
  rw [mem_above, missing, List.mem_filter, List.mem_filter, mem_dependents, decide_eq_true_eq]
  exact ⟨fun h => ⟨h.2, h.1.2⟩, fun h => ⟨⟨hknown h.1, h.2⟩, h.1⟩⟩

theorem notAbove_missing (g : Graph) (unit : String) (found : List String) :
    g.notAbove unit (g.missing found) = g.missing (found ++ g.above unit (g.missing found)) := by
  rw [notAbove, missing, List.filter_filter]
  refine List.filter_congr fun n hn => ?_
  simp only [List.mem_append, mem_above, List.mem_filter, mem_dependents, decide_eq_true_eq, Needs, hn, true_and]
  by_cases hin : n ∈ found <;> simp [hin]

theorem walks_reached (h : rest = g.missing found) :
    g.Walks ⟨todo, found⟩ ⟨[], found ++ g.reached rest todo⟩ := by
  fun_induction reached g rest todo generalizing found with
  | case1 =>
    rw [List.append_nil]
    exact .refl
  | case2 rest unit todo ih =>
    subst h
    have hwalk := ih (g.notAbove_missing unit found)
    rw [List.append_assoc] at hwalk
    exact .head (.mk (.refl _) (g.above_missing_perm unit found) (.refl _)) hwalk

theorem exists_path (h : Relation.ReflTransGen g.Needs n m) :
    ∃ path, (n :: path).IsChain g.Needs ∧ (n :: path).Nodup ∧ (n :: path).getLast? = some m := by
  induction h using Relation.ReflTransGen.head_induction_on with
  | refl => exact ⟨[], .singleton _, List.nodup_singleton _, rfl⟩
  | @head a b hab _ ih =>
    obtain ⟨path, hchain, hnodup, hlast⟩ := ih
    by_cases ha : a ∈ b :: path
    · -- the way from here on was taken already
      obtain ⟨before, after, hsplit⟩ := List.append_of_mem ha
      rw [hsplit] at hchain hnodup hlast
      refine ⟨after, hchain.right_of_append, hnodup.of_append_right, ?_⟩
      rwa [List.getLast?_append_of_ne_nil _ (List.cons_ne_nil _ _)] at hlast
    · exact ⟨b :: path, .cons_cons hab hchain, List.nodup_cons.mpr ⟨ha, hnodup⟩, hlast⟩

theorem reaches_self_iff : g.Reaches n n ↔ ∃ path, g.IsCycle path ∧ n ∈ path := by
  constructor
  · intro h
    obtain ⟨next, hnext, hback⟩ := Relation.TransGen.head'_iff.mp h
    obtain ⟨path, hchain, hnodup, hlast⟩ := exists_path hback
    refine ⟨n :: next :: path, ⟨by simp, by simpa using hlast.symm, ?_, .cons_cons hnext hchain⟩, List.mem_cons_self⟩
    obtain ⟨before, hsplit⟩ := List.getLast?_eq_some_iff.mp hlast
    rw [hsplit, List.nodup_append] at hnodup
    rw [List.dropLast_cons_of_ne_nil (List.cons_ne_nil _ _), hsplit, List.dropLast_concat]
    exact List.nodup_cons.mpr ⟨fun hn => hnodup.2.2 n hn n List.mem_cons_self rfl, hnodup.1⟩
  · rintro ⟨path, hcycle, hn⟩
    exact hcycle.reaches hn

theorem Reaches.right_mem (h : g.Reaches n m) : m ∈ g.names := by
  obtain ⟨b, -, hb⟩ := Relation.TransGen.tail'_iff.mp h
  exact hb.right_mem

theorem nodup_transitiveDependents (g : Graph) (name : String) : (g.transitiveDependents name).Nodup := by
  rw [transitiveDependents]
  split
  · have hall : g.names = g.missing [] := by simp [missing]
    have hkept := (Kept.start g name).walks (walks_reached hall)
    exact (List.mergeSort_perm _ _).nodup_iff.mpr hkept.nodup
  · exact List.nodup_nil

theorem sortNames_transitiveDependents (g : Graph) (name : String) :
    sortNames (g.transitiveDependents name) = g.transitiveDependents name := by
  rw [transitiveDependents]
  split
  · exact sortNames_eq_self (pairwise_sortNames _)
  · exact sortNames_eq_self .nil

/-- The transitive dependents of a unit are those that reach it, in order and each once. A unit is among
its own if it lies on a cycle, and an unknown one has none. Every walk from the unit ends, whichever units
it expands first, and what it found is these. -/
theorem finds_dependents (g : Graph) (name : String) :
    Ascending (g.transitiveDependents name) ∧
    (∀ n, n ∈ g.transitiveDependents name ↔ g.Reaches n name) ∧
    (name ∈ g.transitiveDependents name ↔ ∃ path, g.IsCycle path ∧ name ∈ path) ∧
    (name ∉ g.names → g.transitiveDependents name = []) ∧
    Acc (fun w' w => g.Expands w w') ⟨[name], []⟩ ∧
    ∀ w, g.Walks ⟨[name], []⟩ w → (∃ w', g.Expands w w') ∨ sortNames w.found = g.transitiveDependents name := by
  have hmem : ∀ n, n ∈ g.transitiveDependents name ↔ g.Reaches n name := fun n => by
    by_cases hname : name ∈ g.names
    · exact mem_transitiveDependents hname
    · rw [transitiveDependents, if_neg hname, iff_false_left List.not_mem_nil]
      exact fun hreaches => hname hreaches.right_mem
  have hnodup := g.nodup_transitiveDependents name
  refine ⟨?_, hmem, (hmem name).trans reaches_self_iff, fun hname => ?_, g.wellFounded_expands.apply _,
    fun w hw => ?_⟩
  · rw [← sortNames_transitiveDependents]
    exact ascending_sortNames hnodup
  · rw [transitiveDependents, if_neg hname]
  · obtain ⟨_ | ⟨unit, todo⟩, found⟩ := w
    · have hkept := (Kept.start g name).walks hw
      refine .inr ?_
      rw [← sortNames_transitiveDependents]
      exact sortNames_congr hkept.nodup hnodup fun n => by rw [hkept.mem_iff, hmem]
    · exact .inl (exists_expands (List.cons_ne_nil unit todo))

end BuildCache.Graph
