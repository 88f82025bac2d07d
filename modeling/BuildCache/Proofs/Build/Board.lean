import BuildCache.Build.Board
import BuildCache.Proofs.Plan

/-! # The board of a build: what taking up a unit and noting a result keep -/
namespace BuildCache

namespace UnitResult

/-- Whether a unit ended in such a way that what depends on it cannot be built. -/
def isBad (r : UnitResult) : Bool := r.outcome = .failed || r.outcome = .cancelled

def cause (r : UnitResult) : String :=
  if r.outcome = .failed then "dependency `" ++ r.name ++ "` failed"
  else "dependency `" ++ r.name ++ "` was " ++ r.outcome.label

/-- Why a result keeps a unit from being built, if it does. -/
def blame? (g : Graph) (n : String) (r : UnitResult) : Option String :=
  if r.isBad ∧ n ∈ g.transitiveDependents r.name then some r.cause else none

end UnitResult

namespace Board

/-- The units that have a result. -/
def done (b : Board) : List String := b.results.map (·.name)

/-- Why a unit cannot be built: the first result that keeps it from that. -/
def blame? (p : Plan) (b : Board) (n : String) : Option String := b.results.findSome? (·.blame? p.graph n)

/-- Every unit taken up has a result or is in flight, once, and the countdown is up to date. -/
structure Tracks (p : Plan) (b : Board) (flying : List String) : Prop where
  frontier : p.graph.Frontier b.pending b.ready b.taken b.done
  split : (b.done ++ flying).Perm b.taken

namespace Tracks

variable {p : Plan} {b : Board} {flying : List String}

theorem mem_taken (h : b.Tracks p flying) {n : String} : n ∈ b.taken ↔ n ∈ b.done ∨ n ∈ flying := by
  rw [← h.split.mem_iff, List.mem_append]

theorem nodup (h : b.Tracks p flying) : (b.done ++ flying).Nodup :=
    h.split.nodup_iff.mpr h.frontier.taken_nodup

theorem nodup_done (h : b.Tracks p flying) : b.done.Nodup := (List.nodup_append.mp h.nodup).1

theorem not_mem_done (h : b.Tracks p flying) {n : String} (hn : n ∈ flying) : n ∉ b.done := fun hd =>
  (List.nodup_append.mp h.nodup).2.2 n hd n hn rfl

theorem known (h : b.Tracks p flying) {n : String} (hn : n ∈ b.taken) : n ∈ p.graph.names :=
  (h.frontier.taken_free n hn).1

theorem needs_done (h : b.Tracks p flying) {n d : String} (hn : n ∈ b.taken)
    (hd : p.graph.Needs n d) : d ∈ b.done :=
  Graph.owed_eq_nil.mp (h.frontier.taken_free n hn).2 d hd

theorem reaches_done (h : b.Tracks p flying) {n d : String} (hn : n ∈ b.taken)
    (hr : p.graph.Reaches n d) :
    d ∈ b.done := by
  induction hr with
  | single hd => exact h.needs_done hn hd
  | tail _ hd ih => exact h.needs_done (h.frontier.done_taken _ ih) hd

theorem initial (p : Plan) (hp : p.Valid) : (Board.initial p).Tracks p [] where
  frontier := by
    refine .initial (hp.nodup.filter _) fun n => ?_
    simp only [Board.initial, List.mem_filter, decide_eq_true_eq, hp.mem_order]
  split := .refl _

theorem take (h : b.Tracks p flying) {n : String} (hn : n ∈ b.ready) : (b.take n).Tracks p
    (flying ++ [n]) where
  frontier := h.frontier.take hn
  split := by
    have := h.split.append_right [n]
    rwa [List.append_assoc] at this

theorem record (h : b.Tracks p flying) {r : UnitResult} {rest : List String}
    (hr : (r.name :: rest).Perm flying) : (b.record p r).Tracks p rest := by
  have hf : r.name ∈ flying := hr.mem_iff.mp List.mem_cons_self
  have hdone : (b.record p r).done = b.done ++ [r.name] := by simp [Board.done, Board.record]
  refine ⟨?_, ?_⟩
  · rw [hdone]
    exact h.frontier.finish (h.mem_taken.mpr (.inr hf)) (h.not_mem_done hf)
  · rw [hdone, List.append_assoc]
    exact (hr.append_left b.done).trans h.split

theorem conclude (h : b.Tracks p flying) (n : String) (e : Ending) :
    (b.conclude p n e).Tracks p flying := by
  simp only [Board.conclude]
  split
  · exact ⟨h.frontier, h.split⟩
  · exact ⟨h.frontier, h.split⟩

theorem complete (hp : p.Valid) (h : b.Tracks p []) (hr : b.ready = []) {n : String}
    (hn : n ∈ p.graph.names) :
    n ∈ b.done := by
  by_contra hd
  obtain ⟨m, hm⟩ | ⟨m, hm, hmd⟩ := h.frontier.progress hp.acyclic hn hd
  · rw [hr] at hm
    cases hm
  · rcases h.mem_taken.mp hm with hm | hm
    · exact hmd hm
    · cases hm

end Tracks

theorem mem_ready_of_next? {p : Plan} {b : Board} {n : String} (h : b.next? p = some n) :
    n ∈ b.ready := by
  simpa using List.find?_some h

theorem ready_eq_nil {p : Plan} (hp : p.Valid) {b : Board} {flying : List String} (ht : b.Tracks p flying)
    (h : b.next? p = none) : b.ready = [] := by
  apply List.eq_nil_iff_forall_not_mem.mpr
  intro n hn
  have hk := ((ht.frontier.ready_iff n).mp hn).1
  have := List.find?_eq_none.mp h n (hp.mem_order.mpr hk)
  simp [hn] at this

theorem find?_foldl_blame (cause : String) (names : List String) (m : NameMap String) (n : String) :
    (names.foldl (blame cause) m).find? n = (m.find? n).or (if n ∈ names then some cause else none) := by
  induction names generalizing m with
  | nil => simp
  | cons a names ih =>
    have hstep : (blame cause m a).find? n = (m.find? n).or (if n = a then some cause else none) := by
      rw [blame, NameMap.contains]
      by_cases hc : (m.find? a).isSome
      · rw [if_pos hc]
        by_cases hn : n = a
        · subst hn
          cases hm : m.find? n with
          | none => simp [hm] at hc
          | some c => simp
        · simp [hn]
      · rw [if_neg hc, NameMap.find?_insert]
        by_cases hn : a = n
        · subst hn
          cases hm : m.find? a with
          | none => simp
          | some c => simp [hm] at hc
        · have hn' : n ≠ a := fun h => hn h.symm
          simp [hn, hn']
    rw [List.foldl_cons, ih, hstep, Option.or_assoc]
    congr 1
    by_cases hn : n = a <;> simp [hn]

theorem blame?_record (p : Plan) (b : Board) (r : UnitResult) (n : String) :
    (b.record p r).blame? p n = (b.blame? p n).or (r.blame? p.graph n) := by
  simp [blame?, Board.record, List.findSome?_append]

theorem blame?_record_of_taken {p : Plan} {b : Board} {flying : List String} (h : b.Tracks p flying)
    {r : UnitResult} (hr : r.name ∈ flying) {n : String} (hn : n ∈ b.taken) :
    (b.record p r).blame? p n = b.blame? p n := by
  have hk : r.name ∈ p.graph.names := h.known (h.mem_taken.mpr (.inr hr))
  have hnone : r.blame? p.graph n = none := by
    refine if_neg fun hbad => h.not_mem_done hr (h.reaches_done hn ?_)
    exact (Graph.mem_transitiveDependents hk).mp hbad.2
  rw [blame?_record, hnone, Option.or_none]

theorem exists_bad_of_blame? {p : Plan} {b : Board} {flying : List String}
    (h : b.Tracks p flying) {n c : String}
    (hb : b.blame? p n = some c) : ∃ r ∈ b.results, r.isBad ∧ p.graph.Reaches n r.name ∧ c = r.cause := by
  obtain ⟨r, hr, hs⟩ := List.exists_of_findSome?_eq_some hb
  simp only [UnitResult.blame?] at hs
  split at hs
  · next hbad =>
    have hk : r.name ∈ p.graph.names := h.known (h.frontier.done_taken _ (List.mem_map_of_mem hr))
    cases hs
    exact ⟨r, hr, hbad.1, (Graph.mem_transitiveDependents hk).mp hbad.2, rfl⟩
  · cases hs

theorem blame?_ne_none {p : Plan} {b : Board} {flying : List String} (h : b.Tracks p flying) {n : String}
    {r : UnitResult} (hr : r ∈ b.results) (hbad : r.isBad) (hreach : p.graph.Reaches n r.name) :
    b.blame? p n ≠ none := by
  intro hnone
  have hk : r.name ∈ p.graph.names := h.known (h.frontier.done_taken _ (List.mem_map_of_mem hr))
  have := List.findSome?_eq_none_iff.mp hnone r hr
  rw [UnitResult.blame?, if_pos ⟨hbad, (Graph.mem_transitiveDependents hk).mpr hreach⟩] at this
  cases this

theorem blame?_ne_none_of_needs {p : Plan} {b : Board} {flying : List String}
    (h : b.Tracks p flying) {n d : String}
    (hn : p.graph.Needs n d) (hd : b.blame? p d ≠ none) : b.blame? p n ≠ none := by
  obtain ⟨c, hc⟩ := Option.ne_none_iff_exists'.mp hd
  obtain ⟨r, hr, hbad, hreach, -⟩ := exists_bad_of_blame? h hc
  exact blame?_ne_none h hr hbad (.head hn hreach)

end Board
end BuildCache
