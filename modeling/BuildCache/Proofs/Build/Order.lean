import BuildCache.Proofs.Build.Cancellation

/-! # Builds keep to the build order

The order places units by counting down their dependencies, and so does the board of a build, as results come.
Both pick the same unit: the first in the order of those whose dependencies are all done. -/
namespace BuildCache

theorem Graph.Ordered.mem_of_needs {g : Graph} {done before after : List String} {n d : String}
    (h : g.Ordered done (before ++ n :: after)) (hd : g.Needs n d) : d ∈ done ++ before := by
  induction before generalizing done with
  | nil => rw [List.append_nil]; exact h.1 d hd
  | cons m before ih =>
    rw [List.append_cons]
    exact ih h.2

theorem Plan.order_ofSources {sources : List Source} {p : Plan} (h : ofSources sources = .ok p) :
    p.graph.order = .ok p.order := by
  simp only [ofSources, bind, Except.bind] at h
  split at h
  · cases h
  · split at h
    · cases h
    · next ho =>
      cases h
      exact ho

namespace Board

variable {p : Plan} {b : Board} {flying : List String} {sources : List Source} {n m : String}

/-- A unit was not taken up yet, and all that it depends on has a result. -/
def Eligible (sources : List Source) (b : Board) (n : String) : Prop :=
  n ∈ sources.map (·.name) ∧ n ∉ b.taken ∧ ∀ d, DependsOn sources n d → d ∈ b.done

/-- A unit is eligible, and the others that are come behind it in an order. -/
structure Foremost (sources : List Source) (order : List String) (b : Board) (n : String) : Prop where
  eligible : b.Eligible sources n
  first : ∀ m, b.Eligible sources m → m ≠ n → order.idxOf n < order.idxOf m

theorem eligible_iff (hp : p.Valid) (h : b.Tracks p flying) : b.Eligible p.graph.sources n ↔ n ∈ b.ready := by
  rw [h.frontier.ready_iff, Graph.owed_eq_nil, hp.needs_eq]
  rfl

theorem foremost_of_next? (hp : p.Valid) (h : b.Tracks p flying) (hn : b.next? p = some n) :
    b.Foremost p.graph.sources p.order n := by
  refine ⟨(eligible_iff hp h).mpr (mem_ready_of_next? hn), fun m hm hne => ?_⟩
  obtain ⟨hready, before, after, hsplit, hbefore⟩ := List.find?_eq_some_iff_append.mp hn
  have hm : m ∈ b.ready := (eligible_iff hp h).mp hm
  have hnot : ∀ l ∈ b.ready, l ∉ before := fun l hl hmem => by simpa [hl] using hbefore l hmem
  rw [hsplit, List.idxOf_append_of_notMem (hnot n (of_decide_eq_true hready)), List.idxOf_cons_self,
    List.idxOf_append_of_notMem (hnot m hm), List.idxOf_cons_ne _ hne.symm]
  omega

/-- When all units that were taken up are done and stand first in the order, the next one comes behind them. -/
theorem next?_eq_head (hp : p.Valid) (h : b.Tracks p []) {after : List String}
    (hsplit : p.order = b.taken ++ m :: after) : b.next? p = some m := by
  have hready : m ∈ b.ready := by
    have hnodup := hp.nodup
    rw [hsplit] at hnodup
    refine (h.frontier.ready_iff m).mpr ⟨?_, fun hm => ?_, Graph.owed_eq_nil.mpr fun d hd => ?_⟩
    · exact hp.mem_order.mp (hsplit ▸ List.mem_append_right _ List.mem_cons_self)
    · exact (List.nodup_append.mp hnodup).2.2 m hm m List.mem_cons_self rfl
    · have hord := hp.ordered
      rw [hsplit] at hord
      exact (h.mem_taken.mp (hord.mem_of_needs hd)).resolve_right List.not_mem_nil
  rw [next?, hsplit, List.find?_append, List.find?_eq_none.mpr fun l hl => ?_, Option.none_or]
  · exact List.find?_cons_of_pos (by exact decide_eq_true hready)
  · have hnot : l ∉ b.ready := fun hr => ((h.frontier.ready_iff l).mp hr).2.1 hl
    simpa using hnot

end Board

namespace Build

variable {σ : Type} {b : Builder σ} {p : Plan} {meddles : Caches σ → Caches σ → Prop} {c : Caches σ}
  {s t : State σ} {e : Event} {es : List Event}

theorem Step.prefix_order (hp : p.Valid) (hw : b.workers = 1) (hk : s.Kept p b.environment) (hs : Step b p s e t)
    (h : s.board.taken <+: p.order) : t.board.taken <+: p.order := by
  rcases hs.takes hk with hidles | ⟨hphase, -, hfree, n, hn, htaken, -⟩
  · rw [hidles.taken]
    exact h
  · have hnone : s.flights = [] := List.length_eq_zero_iff.mp (by omega)
    have ht := (hk.orderly (.inl hphase)).tracks
    rw [hnone] at ht
    obtain ⟨rest, hrest⟩ := h
    cases rest with
    | nil =>
      have hready := ((ht.frontier.ready_iff n).mp (Board.mem_ready_of_next? hn))
      refine absurd (hp.mem_order.mpr hready.1) ?_
      rw [← hrest, List.append_nil]
      exact hready.2.1
    | cons m after =>
      obtain rfl : m = n := Option.some.inj ((Board.next?_eq_head hp ht hrest.symm).symm.trans hn)
      rw [htaken, ← hrest]
      exact ⟨after, by simp⟩

theorem Run.prefix_order (hp : p.Valid) (hw : b.workers = 1) (hr : Run b p meddles (.initial p c) es s) :
    s.board.taken <+: p.order :=
  hr.induction_kept (I := fun s => s.board.taken <+: p.order) hp
    (fun _ _ _ _ hk h hs => hs.prefix_order hp hw hk h) (fun _ _ h _ => h) (.initial hp b.environment c)
    List.nil_prefix

theorem Run.mem_taken_of_finished (hp : p.Valid) (hr : Run b p meddles (.initial p c) es s) (hc : .cancel ∉ es)
    (hphase : s.phase = .finished) {n : String} (hn : n ∈ p.graph.names) : n ∈ s.board.taken := by
  have hk := hr.kept hp
  simp only [State.Kept, hphase] at hk
  obtain ⟨board, ho, hclose, -, hend⟩ := hk
  have hnext : board.next? p = none := hend.resolve_left fun h => hc (hr.cancelled_iff.mp h)
  have hdone := ho.tracks.complete hp (Board.ready_eq_nil hp ho.tracks hnext) hn
  rw [hclose]
  exact ho.tracks.frontier.done_taken n hdone

/-- How a build takes up its units, at every moment of it. -/
structure InOrder (b : Builder σ) (p : Plan) (meddles : Caches σ → Caches σ → Prop) (first : State σ)
    (sources : List Source) (es : List Event) (s : State σ) : Prop where
  /-- A unit that is released or skipped is the first in the order whose dependencies all have results. -/
  foremost : ∀ e t, s.step? b p e = some t → Idles s t ∨
    ∃ n, t.board.taken = s.board.taken ++ [n] ∧ Takes s t n ∧ s.board.Foremost sources p.order n
  /-- One worker goes through the order. -/
  serial : b.workers = 1 → s.board.taken <+: p.order
  /-- One worker comes to the end of the order, unless the build is cancelled or given up. -/
  whole : b.workers = 1 → .cancel ∉ es → s.phase = .finished → s.board.taken = p.order
  /-- Only work that breaks down makes a build give up. -/
  aborts : ∀ l failure, s.phase = .aborted l failure → BrokeDown b p meddles first es l

/-- Whatever comes of the units and in whichever order they end: of the units whose dependencies are done, a
build takes up the first one in the build order of the graph, so that a single worker goes through this order, and
to the end of it unless the build is cancelled or the work on a unit breaks down. -/
theorem takes_in_order (b : Builder σ) (c : Caches σ) {sources : List Source}
    (hp : Plan.ofSources sources = .ok p) :
    p.graph.order = .ok p.order ∧
    (∀ i turn, ∃ t es, b.build c sources i turn = .ok t ∧ t.isOver = true ∧
      (State.initial p c).steps? b p es = some t) ∧
    ∀ meddles es s, Run b p meddles (.initial p c) es s →
      InOrder b p meddles (.initial p c) sources es s := by
  refine ⟨Plan.order_ofSources hp, fun i turn => ?_, fun meddles es s hr => ?_⟩
  · obtain ⟨t, es, ht, ho, hes, -⟩ := State.build_isOver hp c i turn
    exact ⟨t, es, ht, ho, hes⟩
  obtain ⟨hv, rfl⟩ := Plan.ofSources_ok hp
  have hk := hr.kept hv
  refine ⟨fun e t ht => ?_, hr.prefix_order hv, fun hw hc hphase => ?_, fun _ _ => hr.brokeDown⟩
  · refine ((step_of_step? ht).takes hk).imp_right ?_
    rintro ⟨hphase, -, -, n, hn, htaken, htakes⟩
    exact ⟨n, htaken, htakes, Board.foremost_of_next? hv (hk.orderly (.inl hphase)).tracks hn⟩
  · have hall : p.order ⊆ s.board.taken := fun n hn =>
      hr.mem_taken_of_finished hv hc hphase (hv.mem_order.mp hn)
    exact (hr.prefix_order hv hw).eq_of_length_le (hv.nodup.subperm hall).length_le

theorem takes_in_order_pair : Plan.ofSources pair = .ok pairPlan ∧ ∃ s : State Unit,
    (State.initial pairPlan emptyCaches).steps? rejectingBuilder pairPlan pairEvents = some s ∧
      s.board.taken = ["a", "b"] ∧
      InOrder rejectingBuilder pairPlan (fun _ _ => False) (.initial pairPlan emptyCaches) pair pairEvents s := by
  have hp : Plan.ofSources pair = .ok pairPlan := by cbv
  have hphase : ((State.initial pairPlan emptyCaches).steps? rejectingBuilder pairPlan pairEvents).map (·.phase)
      = some .finished := by decide +kernel
  obtain ⟨s, hs, hfinished⟩ := Option.map_eq_some_iff.mp hphase
  have hr : Run rejectingBuilder pairPlan (fun _ _ => False) (.initial pairPlan emptyCaches) pairEvents s :=
    .of_steps? hs
  have h := (takes_in_order rejectingBuilder emptyCaches hp).2.2 _ pairEvents s hr
  exact ⟨hp, s, hs, h.whole rfl (by decide) hfinished, h⟩

def strangers : List Source := [⟨"a", [], []⟩, ⟨"b", [], []⟩]

def strangersPlan : Plan := ⟨edgeless strangers (by decide), ["a", "b"]⟩

/-- A retry without a delay ends a build of one worker before the end of the order. -/
theorem order_cut_without_delay : Plan.ofSources strangers = .ok strangersPlan ∧
    strangersPlan.graph.order = .ok ["a", "b"] ∧ hopelessBuilder.workers = 1 ∧
    ∃ s, hopelessBuilder.build emptyCaches strangers .never (.plain 0) = .ok s ∧ s.isOver = true ∧
      s.cancelled = false ∧ s.board.taken = ["a"] := by
  have hp : Plan.ofSources strangers = .ok strangersPlan := by cbv
  refine ⟨hp, Plan.order_ofSources hp, rfl, _, by rw [Builder.build, hp], ?_⟩
  decide +kernel

end Build
end BuildCache
