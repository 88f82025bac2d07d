import BuildCache.Proofs.Build.Step

/-! # The invariant of builds: results, blame, keys and artifacts agree with the plan at every moment -/
namespace BuildCache

/-- The key of each unit, from its content, the keys of its distinct dependencies and the
environment. -/
def Plan.keys (p : Plan) (env : Environment) : NameMap CacheKey :=
  p.evaluate fun s dependencies => Derivation.key ⟨s.hash, dependencies, env⟩

namespace Board

variable {p : Plan} {b : Board} {flying : List String}

/-- Blame falls on exactly the skipped units; units at work and in flight are free of it. -/
structure Accounts (p : Plan) (b : Board) (flying : List String) : Prop where
  causes : ∀ n, b.causes.find? n = b.blame? p n
  skipped : ∀ r ∈ b.results, r.outcome = .skipped →
    ∃ c, b.blame? p r.name = some c ∧ r = .skipped r.name c
  worked : ∀ r ∈ b.results, r.outcome ≠ .skipped → b.blame? p r.name = none
  flying : ∀ n ∈ flying, b.blame? p n = none

theorem Accounts.initial (p : Plan) : (Board.initial p).Accounts p [] :=
  ⟨fun _ => rfl, by simp [Board.initial], by simp [Board.initial], by simp⟩

theorem Accounts.mono {rest : List String} (h : b.Accounts p flying) (hr : ∀ n ∈ rest, n ∈ flying) :
    b.Accounts p rest := ⟨h.causes, h.skipped, h.worked, fun n hn => h.flying n (hr n hn)⟩

theorem Accounts.take (h : b.Accounts p flying) (n : String) : (b.take n).Accounts p flying :=
  ⟨h.causes, h.skipped, h.worked, h.flying⟩

/-- Noting a result keeps the accounts if its blame was laid before and its own outcome fits. -/
theorem Accounts.record {rest : List String} {r : UnitResult} {b' : Board} (ht : b.Tracks p flying)
    (hr : (r.name :: rest).Perm flying) (h : b.Accounts p rest) (hb : b'.results = b.results)
    (hc : ∀ n, b'.causes.find? n = (b.blame? p n).or (r.blame? p.graph n))
    (hs : r.outcome = .skipped → ∃ c, b.blame? p r.name = some c ∧ r = .skipped r.name c)
    (hw : r.outcome ≠ .skipped → b.blame? p r.name = none) : (b'.record p r).Accounts p rest := by
  have hblame : ∀ n, (b'.record p r).blame? p n = (b.record p r).blame? p n := fun n => by
    rw [blame?_record, blame?_record, blame?, hb, ← blame?]
  have hf : r.name ∈ flying := hr.mem_iff.mp List.mem_cons_self
  have hold : ∀ n ∈ b.taken, (b'.record p r).blame? p n = b.blame? p n := fun n hn => by
    rw [hblame, blame?_record_of_taken ht hf hn]
  have hmem : ∀ q ∈ (b'.record p r).results, q ∈ b.results ∨ q = r := fun q hq => by
    simpa [Board.record, hb] using hq
  have htaken : ∀ q ∈ b.results, q.name ∈ b.taken :=
    fun q hq => ht.mem_taken.mpr (.inl (List.mem_map_of_mem hq))
  have hrt : r.name ∈ b.taken := ht.mem_taken.mpr (.inr hf)
  refine ⟨fun n => ?_, fun q hq ho => ?_, fun q hq ho => ?_, fun n hn => ?_⟩
  · rw [hblame, blame?_record, ← hc]
    rfl
  · rcases hmem q hq with hq | rfl
    · rw [hold _ (htaken q hq)]
      exact h.skipped q hq ho
    · rw [hold _ hrt]
      exact hs ho
  · rcases hmem q hq with hq | rfl
    · rw [hold _ (htaken q hq)]
      exact h.worked q hq ho
    · rw [hold _ hrt]
      exact hw ho
  · rw [hold n (ht.mem_taken.mpr (.inr (hr.mem_iff.mp (List.mem_cons_of_mem _ hn))))]
    exact h.flying n hn

/-- What a unit at work holds stems from the plan. -/
structure Sent (p : Plan) (env : Environment) (f : Flight) : Prop where
  source : p.graph.find? f.name = some f.source
  key : (p.keys env).find? f.name = some f.key

/-- The keys on the board are those of the plan, and none is missing that a later unit needs. -/
structure Keyed (p : Plan) (env : Environment) (b : Board) : Prop where
  taken : ∀ n k, b.keys.find? n = some k → n ∈ b.taken
  correct : ∀ n k, b.keys.find? n = some k → (p.keys env).find? n = some k
  present : ∀ n ∈ b.taken, b.blame? p n = none → ∃ k, b.keys.find? n = some k
  results : ∀ r ∈ b.results, r.outcome ≠ .skipped → r.key = (p.keys env).find? r.name

theorem Keyed.initial (p : Plan) (env : Environment) : (Board.initial p).Keyed p env := by
  refine ⟨fun n k h => ?_, fun n k h => ?_, fun n hn _ => ?_, fun r hr _ => ?_⟩
  · cases h
  · cases h
  · cases hn
  · cases hr

/-- Every unit that ended well has its artifact on the board. -/
structure Stocked (b : Board) : Prop where
  done : ∀ n a, b.artifacts.find? n = some a → n ∈ b.done
  present : ∀ r ∈ b.results, ¬r.isBad → r.outcome ≠ .skipped →
    ∃ a, b.artifacts.find? r.name = some a ∧ r.artifact = some a.ref ∧ r.outcome.isSuccess

theorem Stocked.initial (p : Plan) : (Board.initial p).Stocked := by
  refine ⟨fun n a h => ?_, fun r hr _ _ => ?_⟩
  · cases h
  · cases hr

end Board

/-- All that holds of a board and the units in flight between two steps. -/
structure Build.Orderly (p : Plan) (env : Environment) (b : Board) (flights : List Flight) : Prop where
  tracks : b.Tracks p (flights.map (·.name))
  accounts : b.Accounts p (flights.map (·.name))
  keyed : b.Keyed p env
  stocked : b.Stocked
  sent : ∀ f ∈ flights, Board.Sent p env f

namespace Build.Orderly

variable {p : Plan} {env : Environment} {b : Board} {flights : List Flight}

theorem initial (hp : p.Valid) (env : Environment) : Orderly p env (.initial p) [] :=
  ⟨.initial p hp, .initial p, .initial p env, .initial p, by simp⟩

theorem skip (h : Orderly p env b flights) {n c : String} (hn : n ∈ b.ready)
    (hc : b.causes.find? n = some c) :
    Orderly p env ((b.take n).record p (.skipped n c)) flights := by
  have ht := h.tracks.take hn
  have hperm : (n :: flights.map (·.name)).Perm (flights.map (·.name) ++ [n]) :=
    (List.perm_append_singleton n _).symm
  have hblame : ∀ m, UnitResult.blame? p.graph m (.skipped n c) = none := fun m => if_neg fun h => by
    simpa [UnitResult.isBad, UnitResult.skipped] using h.1
  have hcause : (b.take n).blame? p n = some c := (h.accounts.causes n).symm.trans hc
  refine ⟨ht.record hperm, ?_, ?_, ?_, h.sent⟩
  · refine Board.Accounts.record (b := b.take n) ht hperm (h.accounts.take n) rfl (fun m => ?_)
      (fun _ => ⟨c, hcause, rfl⟩)
      fun ho => absurd rfl ho
    rw [hblame, Option.or_none]
    exact h.accounts.causes m
  · refine ⟨fun m k hk => List.mem_append_left _ (h.keyed.taken m k hk), h.keyed.correct,
      fun m hm hnone => ?_, fun r hr ho => ?_⟩
    · rw [Board.blame?_record, hblame, Option.or_none] at hnone
      rcases List.mem_append.mp hm with hm | hm
      · exact h.keyed.present m hm hnone
      · rw [List.mem_singleton] at hm
        subst hm
        rw [hcause] at hnone
        cases hnone
    · rcases List.mem_append.mp hr with hr | hr
      · exact h.keyed.results r hr ho
      · rw [List.mem_singleton] at hr
        exact absurd (hr ▸ rfl) ho
  · refine ⟨fun m a ha => ?_, fun r hr hbad ho => ?_⟩
    · rw [Board.done, Board.record, List.map_append]
      exact List.mem_append_left _ (h.stocked.done m a ha)
    · rcases List.mem_append.mp hr with hr | hr
      · exact h.stocked.present r hr hbad ho
      · rw [List.mem_singleton] at hr
        exact absurd (hr ▸ rfl) ho

/-- The dependencies of a unit that is free of blame are free of it too, and ended well. -/
theorem needs_well (h : Orderly p env b flights) {n d : String} (ht : p.graph.owed b.done n = [])
    (hb : b.blame? p n = none) (hd : p.graph.Needs n d) :
    b.blame? p d = none ∧ ∃ r ∈ b.results, r.name = d ∧ ¬r.isBad ∧ r.outcome ≠ .skipped := by
  have hfree : b.blame? p d = none := by
    by_contra hbad
    exact Board.blame?_ne_none_of_needs h.tracks hd hbad hb
  obtain ⟨r, hr, rfl⟩ := List.mem_map.mp (Graph.owed_eq_nil.mp ht d hd)
  refine ⟨hfree, r, hr, rfl, fun hbad => ?_, fun ho => ?_⟩
  · exact Board.blame?_ne_none h.tracks hr hbad (.single hd) hb
  · obtain ⟨c, hc, -⟩ := h.accounts.skipped r hr ho
    rw [hfree] at hc
    cases hc

theorem dependencyKeys_eq (hp : p.Valid) (h : Orderly p env b flights) {n : String} {s : Source}
    (hn : n ∈ b.ready) (hb : b.blame? p n = none) (hs : p.graph.find? n = some s) :
    b.dependencyKeys s = (p.keys env).select s.distinctDependencies := by
  have hready := (h.tracks.frontier.ready_iff n).mp hn
  apply NameMap.select_congr
  intro d hd
  have hneeds : p.graph.Needs n d := (hp.needs_iff hs).mpr (Source.mem_distinctDependencies.mp hd)
  have ⟨hfree, r, hr, hrd, _⟩ := h.needs_well hready.2.2 hb hneeds
  have hdone : d ∈ b.done := hrd ▸ List.mem_map_of_mem hr
  obtain ⟨k, hk⟩ := h.keyed.present d (h.tracks.frontier.done_taken d hdone) hfree
  rw [hk, h.keyed.correct d k hk]

theorem keyOf_eq (hp : p.Valid) (h : Orderly p env b flights) {n : String} {s : Source} (hn : n ∈ b.ready)
    (hb : b.blame? p n = none) (hs : p.graph.find? n = some s) :
    (p.keys env).find? n = some (b.keyOf env s) := by
  rw [Plan.keys, Plan.evaluate_eq hp hs, Board.keyOf, h.dependencyKeys_eq hp hn hb hs]
  rfl

theorem send (hp : p.Valid) (h : Orderly p env b flights) {n : String} {s : Source} (hn : n ∈ b.ready)
    (hc : b.causes.find? n = none) (hs : p.graph.find? n = some s) {f : Flight} (hfs : f.source = s)
    (hfk : f.key = b.keyOf env s) :
    Orderly p env { b.take n with keys := b.keys.insert n f.key } (flights ++ [f]) := by
  have hb : b.blame? p n = none := (h.accounts.causes n).symm.trans hc
  have hname : f.name = n := by rw [Flight.name, hfs]; exact (Graph.find?_eq_some.mp hs).2
  have hkey : (p.keys env).find? n = some f.key := hfk ▸ h.keyOf_eq hp hn hb hs
  have hnames : (flights ++ [f]).map (·.name) = flights.map (·.name) ++ [n] := by simp [hname]
  have ht := h.tracks.take hn
  refine ⟨?_, ?_, ?_, ⟨h.stocked.done, h.stocked.present⟩, fun g hg => ?_⟩
  · rw [hnames]
    exact ⟨ht.frontier, ht.split⟩
  · rw [hnames]
    refine ⟨h.accounts.causes, h.accounts.skipped, h.accounts.worked, fun m hm => ?_⟩
    rcases List.mem_append.mp hm with hm | hm
    · exact h.accounts.flying m hm
    · rw [List.mem_singleton] at hm
      exact hm ▸ hb
  · refine ⟨fun m k hk => ?_, fun m k hk => ?_, fun m hm hnone => ?_, h.keyed.results⟩
    · rw [NameMap.find?_insert] at hk
      split at hk
      · next e => exact e ▸ List.mem_append_right _ List.mem_cons_self
      · exact List.mem_append_left _ (h.keyed.taken m k hk)
    · rw [NameMap.find?_insert] at hk
      split at hk
      · next e => exact e ▸ hkey.trans hk
      · exact h.keyed.correct m k hk
    · rw [NameMap.find?_insert]
      split
      · exact ⟨_, rfl⟩
      · next hne =>
        rcases List.mem_append.mp hm with hm | hm
        · exact h.keyed.present m hm hnone
        · exact absurd (List.mem_singleton.mp hm).symm hne
  · rcases List.mem_append.mp hg with hg | hg
    · exact h.sent g hg
    · rw [List.mem_singleton] at hg
      subst hg
      exact ⟨by rw [hname, hfs]; exact hs, hname ▸ hkey⟩

theorem set (h : Orderly p env b flights) {i : Nat} {f : Flight} (hf : flights[i]? = some f)
    (stage : Stage) :
    Orderly p env b (flights.set i { f with stage }) := by
  have hnames : (flights.set i { f with stage }).map (·.name) = flights.map (·.name) := by
    obtain ⟨hi, rfl⟩ := List.getElem?_eq_some_iff.mp hf
    rw [List.map_set]
    have hi' : i < (flights.map (·.name)).length := by rwa [List.length_map]
    simpa [Flight.name] using List.set_getElem_self hi'
  refine ⟨hnames ▸ h.tracks, hnames ▸ h.accounts, h.keyed, h.stocked, fun g hg => ?_⟩
  rcases List.mem_or_eq_of_mem_set hg with hg | rfl
  · exact h.sent g hg
  · have := h.sent f (List.mem_of_getElem? hf)
    exact ⟨this.source, this.key⟩

private theorem names_eraseIdx {i : Nat} {f : Flight} (hf : flights[i]? = some f) :
    (f.name :: (flights.eraseIdx i).map (·.name)).Perm (flights.map (·.name)) := by
  obtain ⟨hi, rfl⟩ := List.getElem?_eq_some_iff.mp hf
  exact (List.getElem_cons_eraseIdx_perm hi).map (·.name)

theorem results_conclude (p : Plan) (b : Board) (n : String) (e : Ending) :
    (b.conclude p n e).results = b.results := by
  simp only [Board.conclude]
  split <;> rfl

theorem keys_conclude (p : Plan) (b : Board) (n : String) (e : Ending) :
    (b.conclude p n e).keys = b.keys := by
  simp only [Board.conclude]
  split <;> rfl

theorem taken_conclude (p : Plan) (b : Board) (n : String) (e : Ending) :
    (b.conclude p n e).taken = b.taken := by
  simp only [Board.conclude]
  split <;> rfl

theorem artifacts_conclude (p : Plan) (b : Board) (n : String) (e : Ending) (m : String) :
    (b.conclude p n e).artifacts.find? m
      = if n = m then e.artifact?.or (b.artifacts.find? m) else b.artifacts.find? m := by
  simp only [Board.conclude]
  split
  · next a ha => simp [ha]
  · next ha => simp [ha]

/-- A unit that ended without an artifact is blamed for what depends on it. -/
theorem causes_conclude (p : Plan) (b : Board) (f : Flight) (e : Ending) (d : Duration) (m : String) :
    (b.conclude p f.name e).causes.find? m
      = (b.causes.find? m).or (UnitResult.blame? p.graph m (State.resultOf f e d)) := by
  simp only [Board.conclude]
  cases e with
  | localHit a => simp [Ending.artifact?, UnitResult.blame?, UnitResult.isBad, State.resultOf,
    Ending.outcome]
  | remoteHit a => simp [Ending.artifact?, UnitResult.blame?, UnitResult.isBad, State.resultOf,
    Ending.outcome]
  | compiled a => simp [Ending.artifact?, UnitResult.blame?, UnitResult.isBad, State.resultOf,
    Ending.outcome]
  | failed message =>
    simp only [Ending.artifact?, Board.find?_foldl_blame]
    simp [UnitResult.blame?, UnitResult.isBad, State.resultOf, Ending.outcome,
      UnitResult.cause, Ending.cause]
  | cancelled =>
    simp only [Ending.artifact?, Board.find?_foldl_blame]
    simp [UnitResult.blame?, UnitResult.isBad, State.resultOf, Ending.outcome,
      UnitResult.cause, Ending.cause]

theorem artifact?_of_not_isBad {f : Flight} {e : Ending} {d : Duration}
    (h : ¬(State.resultOf f e d).isBad) :
    ∃ a, e.artifact? = some a ∧ e.outcome.isSuccess := by
  cases e with
  | localHit a | remoteHit a | compiled a => exact ⟨a, rfl, rfl⟩
  | failed message | cancelled => exact absurd rfl h

theorem join (h : Orderly p env b flights) {i : Nat} {f : Flight} (hf : flights[i]? = some f) (e : Ending)
    (d : Duration) :
    Orderly p env ((b.conclude p f.name e).record p (State.resultOf f e d)) (flights.eraseIdx i) := by
  have hperm := names_eraseIdx hf
  have hfly : f ∈ flights := List.mem_of_getElem? hf
  have hname : f.name ∈ flights.map (·.name) := List.mem_map_of_mem hfly
  have hnot : f.name ∉ b.done := h.tracks.not_mem_done hname
  have hskip : (State.resultOf f e d).outcome ≠ .skipped := by
    cases e <;> (intro h; cases h)
  have hresults : ∀ r ∈ ((b.conclude p f.name e).record p (State.resultOf f e d)).results,
      r ∈ b.results ∨ r = State.resultOf f e d := fun r hr => by
    simpa [Board.record, results_conclude] using hr
  refine ⟨(h.tracks.conclude f.name e).record hperm, ?_, ?_, ?_,
    fun g hg => h.sent g (List.mem_of_mem_eraseIdx hg)⟩
  · have hmono := h.accounts.mono fun n hn => hperm.mem_iff.mp (List.mem_cons_of_mem _ hn)
    refine Board.Accounts.record (b := b) h.tracks hperm hmono (results_conclude p b _ e) (fun m => ?_)
      (fun ho => absurd ho hskip) fun _ => h.accounts.flying _ hname
    rw [causes_conclude p b f e d, h.accounts.causes]
  · refine ⟨fun m k hk => ?_, fun m k hk => ?_, fun m hm hnone => ?_, fun r hr ho => ?_⟩
    · rw [Board.record, keys_conclude] at hk
      rw [Board.record, taken_conclude]
      exact h.keyed.taken m k hk
    · rw [Board.record, keys_conclude] at hk
      exact h.keyed.correct m k hk
    · rw [Board.blame?_record, Option.or_eq_none_iff, Board.blame?, results_conclude] at hnone
      rw [Board.record, taken_conclude] at hm
      rw [Board.record, keys_conclude]
      exact h.keyed.present m hm hnone.1
    · rcases hresults r hr with hr | rfl
      · exact h.keyed.results r hr ho
      · exact (h.sent f hfly).key.symm
  · refine ⟨fun m a ha => ?_, fun r hr hbad ho => ?_⟩
    · rw [Board.done, Board.record, List.map_append, results_conclude, List.mem_append]
      rw [Board.record, artifacts_conclude] at ha
      split at ha
      · next hm => exact .inr (hm ▸ List.mem_singleton_self _)
      · exact .inl (h.stocked.done m a ha)
    · rw [Board.record, artifacts_conclude]
      rcases hresults r hr with hr | rfl
      · have hne : f.name ≠ r.name := fun hn => hnot (hn ▸ List.mem_map_of_mem hr)
        rw [if_neg hne]
        exact h.stocked.present r hr hbad ho
      · obtain ⟨a, ha, hs⟩ := artifact?_of_not_isBad hbad
        exact ⟨a, (if_pos rfl).trans (by rw [ha, Option.some_or]),
          by rw [State.resultOf, ha, Option.map_some], hs⟩

end Build.Orderly

namespace Build

variable {σ : Type}

/-- The invariant of states. A build that is over remembers the board with which it came to its end. -/
def State.Kept (p : Plan) (env : Environment) (s : State σ) : Prop :=
  match s.phase with
  | .releasing => Orderly p env s.board s.flights
  | .waiting => Orderly p env s.board s.flights ∧ s.flights ≠ []
  | .finished => ∃ b, Orderly p env b [] ∧ s.board = b.close p ∧ s.flights = [] ∧
      (s.cancelled = true ∨ b.next? p = none)
  | .aborted .. => (∃ flights, Orderly p env s.board flights) ∧ s.flights = []

theorem State.Kept.initial {p : Plan} (hp : p.Valid) (env : Environment) (c : Caches σ) :
    (State.initial p c).Kept p env := Orderly.initial hp env

theorem State.Kept.orderly {p : Plan} {env : Environment} {s : State σ} (h : s.Kept p env)
    (hp : s.phase = .releasing ∨ s.phase = .waiting) : Orderly p env s.board s.flights := by
  simp only [State.Kept] at h
  rcases hp with hp | hp
  · rw [hp] at h
    exact h
  · rw [hp] at h
    exact h.1

theorem State.Kept.orderly_of_mem {p : Plan} {env : Environment} {s : State σ} (h : s.Kept p env)
    {f : Flight} (hf : f ∈ s.flights) : Orderly p env s.board s.flights := by
  cases hphase : s.phase with
  | releasing => exact h.orderly (.inl hphase)
  | waiting => exact h.orderly (.inr hphase)
  | finished =>
    simp only [State.Kept, hphase] at h
    obtain ⟨-, -, -, hnil, -⟩ := h
    rw [hnil] at hf
    cases hf
  | aborted =>
    simp only [State.Kept, hphase] at h
    rw [h.2] at hf
    cases hf

theorem State.Kept.sent {p : Plan} {env : Environment} {s : State σ} (h : s.Kept p env) {f : Flight}
    (hf : f ∈ s.flights) : Board.Sent p env f :=
  (h.orderly_of_mem hf).sent f hf

/-- At every moment there is a board in order, up to the units that the end of a build reports as
cancelled. -/
theorem State.Kept.exists_orderly {p : Plan} {env : Environment} {s : State σ} (h : s.Kept p env) :
    ∃ board flights, Orderly p env board flights ∧ (s.board = board ∨
      s.board = board.close p ∧ flights = [] ∧ (s.cancelled = true ∨ board.next? p = none)) := by
  simp only [State.Kept] at h
  cases hphase : s.phase with
  | releasing =>
    rw [hphase] at h
    exact ⟨_, _, h, .inl rfl⟩
  | waiting =>
    rw [hphase] at h
    exact ⟨_, _, h.1, .inl rfl⟩
  | finished =>
    rw [hphase] at h
    obtain ⟨board, ho, hclose, -, hn⟩ := h
    exact ⟨board, [], ho, .inr ⟨hclose, rfl, hn⟩⟩
  | aborted =>
    rw [hphase] at h
    obtain ⟨flights, ho⟩ := h.1
    exact ⟨_, flights, ho, .inl rfl⟩

/-- Work, publications and cancellation leave the board and the units in flight, up to their stage,
as they are. -/
private theorem State.Kept.same {p : Plan} {env : Environment} {s t : State σ} (h : s.Kept p env)
    (hphase : t.phase = s.phase) (hboard : t.board = s.board) (hflights : t.flights = s.flights)
    (hcancelled : s.cancelled = true → t.cancelled = true) : t.Kept p env := by
  simp only [State.Kept] at h ⊢
  rw [hphase, hboard, hflights]
  cases hp : s.phase with
  | releasing | waiting | aborted =>
    rw [hp] at h
    exact h
  | finished =>
    rw [hp] at h
    obtain ⟨b, hb, hclose, hf, hc⟩ := h
    exact ⟨b, hb, hclose, hf, hc.imp_left hcancelled⟩

theorem State.Kept.find?_next_ne_none {p : Plan} {env : Environment} {s : State σ} (h : s.Kept p env)
    (hphase : s.phase = .releasing) {n : String} (hn : s.board.next? p = some n) :
    p.graph.find? n ≠ none := by
  intro hnone
  have hready := (h.orderly (.inl hphase)).tracks.frontier.ready_iff n
  obtain ⟨source, hsource, -⟩ := Graph.exists_find? (hready.mp (Board.mem_ready_of_next? hn)).1
  rw [hnone] at hsource
  cases hsource

theorem State.Kept.step {b : Builder σ} {p : Plan} (hp : p.Valid) {s t : State σ} {e : Event}
    (h : s.Kept p b.environment) (hs : Step b p s e t) : t.Kept p b.environment := by
  cases hs with
  | finish hphase hf hs =>
    have ho := h.orderly (.inl hphase)
    rw [hf] at ho
    refine ⟨s.board, ho, rfl, hf, ?_⟩
    rcases hs with hw | hc
    · have := b.workers_pos
      rw [hf, List.length_nil] at hw
      omega
    · exact hc
  | wait hphase hf hs => exact ⟨h.orderly (.inl hphase), hf⟩
  | skip hphase hw hc hn hb =>
    have ho := (h.orderly (.inl hphase)).skip (Board.mem_ready_of_next? hn) hb
    simp only [State.Kept, State.skip]
    rw [hphase]
    exact ho
  | @send n source hphase hw hc hn hb hs =>
    have ho := (h.orderly (.inl hphase)).send hp (Board.mem_ready_of_next? hn) hb hs
      (f := s.flightOf b n source) rfl rfl
    simp only [State.Kept, State.send]
    rw [hphase]
    exact ho
  | lose hphase hn hs => exact absurd hs (h.find?_next_ne_none hphase hn)
  | @work i turn f hf ho =>
    simp only [State.Kept, State.work] at *
    cases hphase : s.phase with
    | releasing =>
      rw [hphase] at h
      exact h.set hf _
    | waiting =>
      rw [hphase] at h
      refine ⟨h.1.set hf _, fun hnil => h.2 ?_⟩
      rwa [List.set_eq_nil_iff] at hnil
    | finished =>
      rw [hphase] at h
      obtain ⟨_, _, _, hnil, _⟩ := h
      rw [hnil] at hf
      cases hf
    | aborted =>
      rw [hphase] at h
      rw [h.2] at hf
      cases hf
  | join hphase hf he => exact (h.orderly (.inr hphase)).join hf _ _
  | perish hf => exact ⟨⟨s.flights, h.orderly_of_mem (List.mem_of_getElem? hf)⟩, rfl⟩
  | abort hphase hf hl => exact ⟨⟨s.flights, h.orderly (.inr hphase)⟩, rfl⟩
  | publish hq => exact h.same rfl rfl rfl id
  | cancel hc => exact h.same rfl rfl rfl fun _ => rfl

end Build
end BuildCache
