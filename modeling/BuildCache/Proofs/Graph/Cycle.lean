import Mathlib.Data.List.Chain
import Mathlib.Data.List.Permutation
import BuildCache.Proofs.Graph.Acyclic
import BuildCache.Proofs.Graph.Reach
import BuildCache.Proofs.Graph.Search

/-! # Reported cycles: what the search fails with is a cycle, without the units that led into it -/
namespace BuildCache.Graph

/-- A cycle with its first unit repeated at the end: each unit needs the next one, and none but the
first occurs twice. -/
structure IsCycle (g : Graph) (path : List String) : Prop where
  two_le : 2 ≤ path.length
  closed : path.head? = path.getLast?
  nodup : path.dropLast.Nodup
  needs : path.IsChain g.Needs

/-- On a path, given top first, each unit needs the one above it. -/
def Descends (g : Graph) (path : List String) : Prop := path.IsChain fun upper lower => g.Needs lower upper

variable {g : Graph} {path : List String}

theorem reaches_of_isChain {a b : String} {between : List String}
    (h : List.IsChain g.Needs (a :: (between ++ [b]))) : g.Reaches a b := by
  induction between generalizing a with
  | nil => exact .single (List.isChain_pair.mp h)
  | cons c between ih =>
    obtain ⟨hac, hrest⟩ := List.isChain_cons_cons.mp h
    exact .head hac (ih hrest)

theorem IsCycle.exists_eq (h : g.IsCycle path) : ∃ first between, path = first :: (between ++ [first]) := by
  obtain ⟨hlength, hclosed, -, -⟩ := h
  cases path with
  | nil => cases hlength
  | cons first rest =>
    rcases List.eq_nil_or_concat' rest with rfl | ⟨between, last, rfl⟩
    · simp at hlength
    · rw [← List.cons_append, List.getLast?_concat, List.cons_append, List.head?_cons, Option.some.injEq] at hclosed
      exact ⟨first, between, by rw [hclosed]⟩

theorem IsCycle.reaches (h : g.IsCycle path) {n : String} (hn : n ∈ path) : g.Reaches n n := by
  obtain ⟨first, between, rfl⟩ := h.exists_eq
  by_cases hfirst : n = first
  · exact hfirst ▸ reaches_of_isChain h.needs
  · have hmem : n ∈ between := by simpa [hfirst] using hn
    obtain ⟨before, after, rfl⟩ := List.append_of_mem hmem
    have hneeds := h.needs
    rw [List.append_assoc, List.cons_append, List.isChain_cons_split] at hneeds
    exact (reaches_of_isChain hneeds.2).trans (reaches_of_isChain hneeds.1)

theorem isCycle_cycleTo {unit : String} (hn : path.Nodup) (hd : g.Descends path)
    (htop : ∀ top ∈ path.head?, g.Needs top unit) (hu : unit ∈ path) : g.IsCycle (cycleTo path unit) := by
  obtain ⟨above, below, rfl, hnot⟩ := List.eq_append_cons_of_mem hu
  have habove : (above ++ unit :: below).takeWhile (· ≠ unit) = above := by
    rw [List.takeWhile_append_of_pos fun n hmem => by
      simpa using fun he : n = unit => hnot (he ▸ hmem)]
    simp
  have hsplit : cycleTo (above ++ unit :: below) unit = (above ++ [unit]).reverse ++ [unit] := by
    rw [cycleTo, habove, List.reverse_append]
    rfl
  have hhead : (above ++ [unit]).head? = (above ++ unit :: below).head? := by
    rw [List.head?_append, List.head?_append]
    rfl
  rw [hsplit]
  refine ⟨?_, ?_, ?_, ?_⟩
  · simp
  · rw [List.getLast?_concat, List.reverse_append]
    rfl
  · rw [List.dropLast_concat, List.nodup_reverse]
    exact hn.sublist ((List.singleton_sublist.mpr List.mem_cons_self).append_left above)
  · refine List.isChain_append.mpr ⟨?_, List.isChain_singleton unit, ?_⟩
    · exact List.isChain_reverse.mpr (List.isChain_split.mp hd).1
    · intro top htop' last hlast
      rw [List.getLast?_reverse, hhead] at htop'
      obtain rfl : unit = last := by simpa using hlast
      exact htop top htop'

/-- What a search for one unit at some depth promises if it fails. -/
private def Closes (g : Graph) (depth : Nat) : Prop :=
  ∀ path done unit cycle, path.Nodup → g.Descends path → (∀ top ∈ path.head?, g.Needs top unit) →
    unit ∉ path → g.visit depth path done unit = .error cycle → g.IsCycle cycle

private theorem visitAll_error {depth : Nat} (hv : Closes g depth) {units done cycle : List String}
    (hn : path.Nodup) (hd : g.Descends path) (htop : ∀ n ∈ units, ∀ top ∈ path.head?, g.Needs top n)
    (h : g.visitAll depth path done units = .error cycle) : g.IsCycle cycle := by
  induction units generalizing done with
  | nil =>
    rw [visitAll] at h
    cases h
  | cons unit rest ih =>
    have htop' : ∀ n ∈ rest, ∀ top ∈ path.head?, g.Needs top n := fun n hn => htop n (List.mem_cons_of_mem _ hn)
    rw [visitAll] at h
    split at h
    · next hp =>
      cases h
      exact isCycle_cycleTo hn hd (htop unit List.mem_cons_self) hp
    · next hp =>
      split at h
      · exact ih htop' h
      · cases hvisit : g.visit depth path done unit with
        | error e =>
          rw [hvisit] at h
          cases h
          exact hv path done unit cycle hn hd (htop unit List.mem_cons_self) hp hvisit
        | ok middle =>
          rw [hvisit] at h
          exact ih htop' h

private theorem closes (g : Graph) (depth : Nat) : Closes g depth := by
  induction depth with
  | zero =>
    intro path done unit cycle _ _ _ _ h
    rw [visit] at h
    cases h
  | succ depth ih =>
    intro path done unit cycle hn hd htop hp h
    rw [visit] at h
    cases hall : g.visitAll depth (unit :: path) done (g.successors unit) with
    | ok middle =>
      rw [hall] at h
      cases h
    | error e =>
      rw [hall] at h
      cases h
      refine visitAll_error ih (List.nodup_cons.mpr ⟨hp, hn⟩) (List.isChain_cons.mpr ⟨htop, hd⟩) ?_ hall
      intro n hmem top htop
      obtain rfl : unit = top := by simpa using htop
      exact mem_successors.mp hmem

theorem isCycle_of_cycle? (h : g.cycle? = some path) : g.IsCycle path := by
  simp only [cycle?] at h
  split at h
  · cases h
  · next cycle hall =>
    cases h
    exact visitAll_error (closes g g.size) .nil .nil (by simp) hall

theorem Acyclic.not_reaches (h : g.Acyclic) (n : String) : ¬g.Reaches n n := by
  intro hn
  obtain ⟨m, hm, hleast⟩ := h.exists_least (P := fun m => g.Reaches m m) hn
  obtain ⟨d, hd, hback⟩ := Relation.TransGen.head'_iff.mp hm
  exact hleast d hd (.tail' hback hd)

theorem cycle?_eq_none_iff : g.cycle? = none ↔ ∀ n, ¬g.Reaches n n := by
  constructor
  · exact fun h n => (acyclic_of_cycle?_eq_none h).not_reaches n
  · intro h
    cases hc : g.cycle? with
    | none => rfl
    | some path =>
      have hcycle := isCycle_of_cycle? hc
      obtain ⟨first, between, rfl⟩ := hcycle.exists_eq
      exact absurd (hcycle.reaches List.mem_cons_self) (h first)

/-- The search ends; it reports nothing just where no unit reaches itself, and what it reports is a
cycle. Each unit of a cycle reaches itself, so none is listed that only led there. -/
theorem finds_cycles (g : Graph) :
    Search.Leads g (.start g) (.over g.cycle?) ∧ (g.cycle? = none ↔ ∀ n, ¬g.Reaches n n) ∧
      ∀ path, g.cycle? = some path → g.IsCycle path ∧ ∀ n ∈ path, g.Reaches n n :=
  ⟨Search.leads_cycle? g, cycle?_eq_none_iff, fun _ hpath =>
    have hcycle := isCycle_of_cycle? hpath
    ⟨hcycle, fun _ hn => hcycle.reaches hn⟩⟩

/-- The search begins at `a`, from which a cycle is entered at `b`. -/
def entered : Graph where
  sources := [⟨"a", [], ["b"]⟩, ⟨"b", [], ["c"]⟩, ⟨"c", [], ["d"]⟩, ⟨"d", [], ["b"]⟩]
  edges := [("a", "b"), ("b", "c"), ("c", "d"), ("d", "b")]
  names_nodup := by decide
  edges_nodup := by decide
  edges_known := by decide

theorem finds_cycles_entered : entered.cycle? = some ["b", "c", "d", "b"] ∧
    entered.IsCycle ["b", "c", "d", "b"] ∧ entered.Reaches "b" "b" := by
  have hpath : entered.cycle? = some ["b", "c", "d", "b"] := by cbv
  obtain ⟨hcycle, hreaches⟩ := (finds_cycles entered).2.2 _ hpath
  exact ⟨hpath, hcycle, hreaches "b" (by decide)⟩

end BuildCache.Graph
