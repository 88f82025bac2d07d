import BuildCache.Proofs.Graph.Dependents

/-! # Unit lists that are accepted, what the graph has of them, and the first defect of the others -/
namespace BuildCache.Graph

variable {g : Graph} {sources rest : List Source} {s : Source} {n unit dependency : String}
  {edges : List (String × String)}

/-- The first unit whose name an earlier one has too is of this name. -/
def Repeats (sources : List Source) (name : String) : Prop :=
  ∃ before s after, sources = before ++ s :: after ∧ s.name = name ∧ name ∈ before.map (·.name) ∧
    (before.map (·.name)).Nodup

/-- A dependency that no unit has the name of. -/
def Unknown (sources : List Source) (dependency : String) : Prop := dependency ∉ sources.map (·.name)

/-- The first unit with an unknown dependency, and the first such dependency in its own order. -/
def Dangles (sources : List Source) (unit dependency : String) : Prop :=
  ∃ before s after earlier later, sources = before ++ s :: after ∧ s.name = unit ∧
    s.dependencies = earlier ++ dependency :: later ∧ Unknown sources dependency ∧
    (∀ d ∈ earlier, ¬Unknown sources d) ∧ ∀ t ∈ before, ∀ d ∈ t.dependencies, ¬Unknown sources d

theorem exists_repeats (h : ¬(sources.map (·.name)).Nodup) : ∃ n, Repeats sources n := by
  induction sources using List.reverseRecOn with
  | nil => exact absurd List.nodup_nil h
  | append_singleton sources s ih =>
    by_cases hn : (sources.map (·.name)).Nodup
    · refine ⟨s.name, sources, s, [], rfl, rfl, ?_, hn⟩
      by_contra hnot
      rw [List.map_append, List.map_singleton, ← List.concat_eq_append] at h
      exact h (hn.concat hnot)
    · obtain ⟨n, before, t, after, rfl, hname, hmem, hbefore⟩ := ih hn
      exact ⟨n, before, t, after ++ [s], by simp, hname, hmem, hbefore⟩

theorem exists_dangles (h : ∃ s ∈ sources, ∃ d ∈ s.dependencies, Unknown sources d) :
    ∃ unit dependency, Dangles sources unit dependency := by
  classical
  have hfound : (sources.find? fun s => decide (∃ d ∈ s.dependencies, Unknown sources d)).isSome := by
    simpa using h
  obtain ⟨s, hs⟩ := Option.isSome_iff_exists.mp hfound
  obtain ⟨hdefect, before, after, hsplit, hbefore⟩ := List.find?_eq_some_iff_append.mp hs
  have hfound' : (s.dependencies.find? fun d => decide (Unknown sources d)).isSome := by
    simpa using of_decide_eq_true hdefect
  obtain ⟨d, hd⟩ := Option.isSome_iff_exists.mp hfound'
  obtain ⟨hunknown, earlier, later, hsplit', hearlier⟩ := List.find?_eq_some_iff_append.mp hd
  refine ⟨s.name, d, before, s, after, earlier, later, hsplit, rfl, hsplit', of_decide_eq_true hunknown,
    fun e he => by simpa using hearlier e he, fun t ht e he hbad => ?_⟩
  have hclean := hbefore t ht
  simp only [Bool.not_eq_true', decide_eq_false_iff_not] at hclean
  exact hclean ⟨e, he, hbad⟩

theorem names_addSources {h : Graph} (ha : g.addSources sources = .ok h) :
    h.names = g.names ++ sources.map (·.name) := by
  rw [names, (addSources_ok ha).1, List.map_append]
  rfl

theorem addSource_of_mem (h : s.name ∈ g.names) : g.addSource s = .error (.duplicateUnit s.name) := dif_pos h

theorem exists_addSources (h : (g.names ++ sources.map (·.name)).Nodup) : ∃ h, g.addSources sources = .ok h := by
  induction sources generalizing g with
  | nil => exact ⟨g, rfl⟩
  | cons s sources ih =>
    have hfresh : s.name ∉ g.names := fun hmem =>
      (List.nodup_append.mp h).2.2 s.name hmem s.name List.mem_cons_self rfl
    obtain ⟨g', hg'⟩ : ∃ g', g.addSource s = .ok g' := ⟨_, dif_neg hfresh⟩
    have hnames : g'.names = g.names ++ [s.name] := by
      rw [names, (addSource_ok hg').1, List.map_append]
      rfl
    obtain ⟨g'', hg''⟩ := ih (g := g') (by rwa [hnames, List.append_assoc])
    exact ⟨g'', by rw [addSources, List.foldlM_cons, hg']; exact hg''⟩

theorem addSources_append (g : Graph) (sources rest : List Source) :
    g.addSources (sources ++ rest) = g.addSources sources >>= fun h => h.addSources rest :=
  List.foldlM_append

theorem addEdges_append (g : Graph) (edges rest : List (String × String)) :
    g.addEdges (edges ++ rest) = g.addEdges edges >>= fun h => h.addEdges rest :=
  List.foldlM_append

theorem exists_addEdges (h : ∀ e ∈ edges, e.1 ∈ g.names ∧ e.2 ∈ g.names) : ∃ h, g.addEdges edges = .ok h := by
  induction edges generalizing g with
  | nil => exact ⟨g, rfl⟩
  | cons e edges ih =>
    obtain ⟨hunit, hdependency⟩ := h e List.mem_cons_self
    rw [names] at hunit hdependency
    obtain ⟨g', hg'⟩ : ∃ g', g.addEdge e.1 e.2 = .ok g' := by
      rw [addEdge, dif_pos hdependency, dif_pos hunit]
      split <;> exact ⟨_, rfl⟩
    have hnames : g'.names = g.names := by rw [names, (addEdge_ok hg').1, names]
    obtain ⟨g'', hg''⟩ := ih (g := g') fun e' he' => by
      rw [hnames]
      exact h e' (List.mem_cons_of_mem _ he')
    exact ⟨g'', by rw [addEdges, List.foldlM_cons, hg']; exact hg''⟩

theorem addEdge_of_not_mem (h : dependency ∉ g.names) :
    g.addEdge unit dependency = .error (.unresolvedDependency unit dependency) := dif_neg h

theorem declared_append (sources rest : List Source) :
    declared (sources ++ rest) = declared sources ++ declared rest :=
  List.flatMap_append

theorem declared_cons (s : Source) (rest : List Source) :
    declared (s :: rest) = s.dependencies.map (s.name, ·) ++ declared rest := List.flatMap_cons

theorem Repeats.ofSources (h : Repeats sources n) : ofSources sources = .error (.duplicateUnit n) := by
  obtain ⟨before, s, after, rfl, rfl, hmem, hbefore⟩ := h
  obtain ⟨g, hg⟩ := exists_addSources (g := empty) hbefore
  have hs : g.addSource s = .error (.duplicateUnit s.name) := addSource_of_mem (by rwa [names_addSources hg])
  rw [Graph.ofSources, addSources_append, hg]
  show (g.addSources (s :: after) >>= _) = _
  rw [addSources, List.foldlM_cons, hs]
  rfl

theorem Dangles.ofSources (hnames : (sources.map (·.name)).Nodup) (h : Dangles sources unit dependency) :
    ofSources sources = .error (.unresolvedDependency unit dependency) := by
  obtain ⟨g, hg⟩ := exists_addSources (g := empty) hnames
  have hknown : g.names = sources.map (·.name) := names_addSources hg
  obtain ⟨before, s, after, earlier, later, hsplit, rfl, hdeps, hunknown, hearlier, hbefore⟩ := h
  have hs : s ∈ sources := hsplit ▸ List.mem_append_right _ List.mem_cons_self
  -- the edges before the first unknown one
  have hearly : ∀ e ∈ declared before ++ earlier.map (s.name, ·), e.1 ∈ g.names ∧ e.2 ∈ g.names := by
    rintro ⟨u, d⟩ he
    rw [hknown]
    rcases List.mem_append.mp he with he | he
    · obtain ⟨t, ht, rfl, hd⟩ := mem_declared.mp he
      refine ⟨List.mem_map_of_mem (hsplit ▸ List.mem_append_left _ ht), not_not.mp (hbefore t ht d hd)⟩
    · obtain ⟨d, hd, he⟩ := List.mem_map.mp he
      cases he
      exact ⟨List.mem_map_of_mem hs, not_not.mp (hearlier d hd)⟩
  obtain ⟨g', hg'⟩ := exists_addEdges hearly
  have hedges : declared sources
      = declared before ++ earlier.map (s.name, ·) 
        ++ (s.name, dependency) :: (later.map (s.name, ·) ++ declared after) := by
    rw [hsplit, declared_append, declared_cons, hdeps]
    simp
  have hfails : g'.addEdge s.name dependency = .error (.unresolvedDependency s.name dependency) := by
    refine addEdge_of_not_mem ?_
    rwa [names, (addEdges_ok hg').1, ← names, hknown]
  rw [Graph.ofSources, hg]
  show g.addEdges (declared sources) = _
  rw [hedges, addEdges_append, hg']
  show g'.addEdges (_ :: _) = _
  rw [addEdges, List.foldlM_cons, hfails]
  rfl

theorem exists_ofSources (hnames : (sources.map (·.name)).Nodup)
    (h : ∀ s ∈ sources, ∀ d ∈ s.dependencies, ¬Unknown sources d) : ∃ g, ofSources sources = .ok g := by
  obtain ⟨g, hg⟩ := exists_addSources (g := empty) hnames
  have hknown : g.names = sources.map (·.name) := names_addSources hg
  rw [ofSources, hg]
  refine exists_addEdges fun e he => ?_
  obtain ⟨s, hs, hname, hd⟩ := mem_declared.mp (show (e.1, e.2) ∈ declared sources from he)
  rw [hknown]
  exact ⟨hname ▸ List.mem_map_of_mem hs, not_not.mp (h s hs e.2 hd)⟩

/-- What a graph has of a unit list: each unit under its name as it was given, no others, and for each
dependency that a unit declares an edge, and no others. -/
structure Holds (sources : List Source) (g : Graph) : Prop where
  names : g.names = sources.map (·.name)
  unit : ∀ s ∈ sources, g.find? s.name = some s ∧ g.dependencies? s.name = some s.dependencies
  edges : ∀ u d, (u, d) ∈ g.edges ↔ ∃ s ∈ sources, s.name = u ∧ d ∈ s.dependencies
  dependents : ∀ d, Ascending (g.dependents d) ∧
    ∀ u, u ∈ g.dependents d ↔ ∃ s ∈ sources, s.name = u ∧ d ∈ s.dependencies

theorem holds_ofSources (h : ofSources sources = .ok g) : Holds sources g := by
  obtain ⟨hsources, hdeclares⟩ := ofSources_ok h
  have hfind : ∀ s ∈ sources, g.find? s.name = some s := fun s hs => find?_eq_some.mpr ⟨hsources ▸ hs, rfl⟩
  have hedges : ∀ u d, (u, d) ∈ g.edges ↔ ∃ s ∈ sources, s.name = u ∧ d ∈ s.dependencies := fun u d => by
    constructor
    · intro he
      obtain ⟨s, hs, rfl⟩ := List.mem_map.mp (Needs.left_mem he)
      exact ⟨s, hsources ▸ hs, rfl, (hdeclares s hs d).mp he⟩
    · rintro ⟨s, hs, rfl, hd⟩
      exact (hdeclares s (hsources ▸ hs) d).mpr hd
  refine ⟨by rw [names, hsources], fun s hs => ⟨hfind s hs, ?_⟩, hedges,
    fun d => ⟨g.ascending_dependents d, fun u => ?_⟩⟩
  · rw [dependencies?, hfind s hs]
    rfl
  · rw [mem_dependents, hedges]

theorem Repeats.not_nodup (h : Repeats sources n) : ¬(sources.map (·.name)).Nodup := by
  obtain ⟨before, s, after, rfl, rfl, hmem, -⟩ := h
  intro hnames
  rw [List.map_append, List.map_cons] at hnames
  exact (List.nodup_append.mp hnames).2.2 s.name hmem s.name List.mem_cons_self rfl

theorem Dangles.exists_unknown (h : Dangles sources unit dependency) :
    ∃ s ∈ sources, ∃ d ∈ s.dependencies, Unknown sources d := by
  obtain ⟨before, s, after, earlier, later, hsplit, -, hdeps, hunknown, -⟩ := h
  exact ⟨s, hsplit ▸ List.mem_append_right _ List.mem_cons_self, dependency,
    hdeps ▸ List.mem_append_right _ List.mem_cons_self, hunknown⟩

/-- A list has one of three outcomes, a repeated name before an unknown dependency. -/
theorem ofSources_cases (sources : List Source) :
    (∃ n, Repeats sources n ∧ ofSources sources = .error (.duplicateUnit n)) ∨
    (sources.map (·.name)).Nodup ∧
      ((∃ u d, Dangles sources u d ∧ ofSources sources = .error (.unresolvedDependency u d)) ∨
      (∀ s ∈ sources, ∀ d ∈ s.dependencies, ¬Unknown sources d) ∧ ∃ g, ofSources sources = .ok g) := by
  by_cases hnames : (sources.map (·.name)).Nodup
  · refine .inr ⟨hnames, ?_⟩
    by_cases hunknown : ∃ s ∈ sources, ∃ d ∈ s.dependencies, Unknown sources d
    · obtain ⟨u, d, h⟩ := exists_dangles hunknown
      exact .inl ⟨u, d, h, h.ofSources hnames⟩
    · have hknown : ∀ s ∈ sources, ∀ d ∈ s.dependencies, ¬Unknown sources d := fun s hs d hd hbad =>
        hunknown ⟨s, hs, d, hd, hbad⟩
      exact .inr ⟨hknown, exists_ofSources hnames hknown⟩
  · obtain ⟨n, h⟩ := exists_repeats hnames
    exact .inl ⟨n, h, h.ofSources⟩

/-- A list is accepted if its names are different and all dependencies are known, and the graph has what
was given. Else the first repeated name is reported; without one, the first unknown dependency. -/
theorem accepts_known (sources : List Source) :
    ((∃ n, Repeats sources n) ↔ ¬(sources.map (·.name)).Nodup) ∧
    (∀ n, ofSources sources = .error (.duplicateUnit n) ↔ Repeats sources n) ∧
    ((∃ u d, Dangles sources u d) ↔ ∃ s ∈ sources, ∃ d ∈ s.dependencies, Unknown sources d) ∧
    (∀ u d, ofSources sources = .error (.unresolvedDependency u d) ↔
      (sources.map (·.name)).Nodup ∧ Dangles sources u d) ∧
    ((∃ g, ofSources sources = .ok g) ↔
      (sources.map (·.name)).Nodup ∧ ∀ s ∈ sources, ∀ d ∈ s.dependencies, ¬Unknown sources d) ∧
    ∀ g, ofSources sources = .ok g → Holds sources g := by
  refine ⟨⟨fun ⟨n, h⟩ => h.not_nodup, exists_repeats⟩, fun n => ⟨fun he => ?_, Repeats.ofSources⟩,
    ⟨fun ⟨u, d, h⟩ => h.exists_unknown, exists_dangles⟩,
    fun u d => ⟨fun he => ?_, fun h => h.2.ofSources h.1⟩,
    ⟨fun ⟨g, he⟩ => ?_, fun h => exists_ofSources h.1 h.2⟩, fun g => holds_ofSources⟩
  -- each outcome is that of one case only
  all_goals
    rcases ofSources_cases sources with ⟨m, hm, hm'⟩ | ⟨hnames, ⟨u', d', h, h'⟩ | ⟨hknown, g', hg'⟩⟩
  case refine_1.inl => cases he.symm.trans hm'; exact hm
  case refine_1.inr.inl => cases he.symm.trans h'
  case refine_1.inr.inr => cases he.symm.trans hg'
  case refine_2.inl => cases he.symm.trans hm'
  case refine_2.inr.inl => cases he.symm.trans h'; exact ⟨hnames, h⟩
  case refine_2.inr.inr => cases he.symm.trans hg'
  case refine_3.inl => cases he.symm.trans hm'
  case refine_3.inr.inl => cases he.symm.trans h'
  case refine_3.inr.inr => exact ⟨hnames, hknown⟩

end BuildCache.Graph
