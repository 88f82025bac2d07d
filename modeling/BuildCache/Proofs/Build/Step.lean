import BuildCache.Build.Schedule
import BuildCache.Proofs.Build.Board

/-! # What one event of a build can do, and what holds of all runs -/
namespace BuildCache.Build

section

variable {α : Type} {l : List α} {i : Nat} {x : α}

theorem perm_eraseIdx (h : l[i]? = some x) : l.Perm (x :: l.eraseIdx i) := by
  obtain ⟨hi, rfl⟩ := List.getElem?_eq_some_iff.mp h
  exact (List.getElem_cons_eraseIdx_perm hi).symm

theorem perm_set (h : l[i]? = some x) (y : α) : (l.set i y).Perm (y :: l.eraseIdx i) := by
  obtain ⟨hi, -⟩ := List.getElem?_eq_some_iff.mp h
  exact List.set_perm_cons_eraseIdx hi y

end

variable {σ : Type}

/-- Whether the release loop stops: all workers are busy, the build was cancelled, or no unit is
ready. -/
def State.Stuck (b : Builder σ) (p : Plan) (s : State σ) : Prop :=
  b.workers ≤ s.flights.length ∨ s.cancelled = true ∨ s.board.next? p = none

/-- The board after a ready unit was skipped. -/
def State.skip (p : Plan) (s : State σ) (n cause : String) : State σ :=
  { s with board := (s.board.take n).record p (.skipped n cause) }

/-- The unit that is sent off, as it flies first. -/
def State.flightOf (b : Builder σ) (s : State σ) (n : String) (source : Source) : Flight :=
  ⟨source, (s.board.take n).keyOf b.environment source,
  (s.board.take n).dependencyArtifacts source, .lookup⟩

def State.send (b : Builder σ) (s : State σ) (n : String) (source : Source) : State σ :=
  { s with
    board := { s.board.take n with keys := s.board.keys.insert n (s.flightOf b n source).key }
    flights := s.flights ++ [s.flightOf b n source] }

/-- The steps of a build, by what they do. -/
inductive Step (b : Builder σ) (p : Plan) (s : State σ) : Event → State σ → Prop
  | finish (hp : s.phase = .releasing) (hf : s.flights = []) (hs : s.Stuck b p) :
    Step b p s .release (s.finish p)
  | wait (hp : s.phase = .releasing) (hf : s.flights ≠ []) (hs : s.Stuck b p) :
      Step b p s .release { s with phase := .waiting }
  | skip {n cause : String} (hp : s.phase = .releasing) (hw : s.flights.length < b.workers)
      (hc : s.cancelled = false) (hn : s.board.next? p = some n)
      (hb : s.board.causes.find? n = some cause) :
      Step b p s .release (s.skip p n cause)
  | send {n : String} {source : Source} (hp : s.phase = .releasing) (hw : s.flights.length < b.workers)
      (hc : s.cancelled = false) (hn : s.board.next? p = some n) (hb : s.board.causes.find? n = none)
      (hs : p.graph.find? n = some source) : Step b p s .release (s.send b n source)
  | lose {n : String} (hp : s.phase = .releasing) (hn : s.board.next? p = some n)
    (hs : p.graph.find? n = none) :
      Step b p s .release { s with board := s.board.take n }
  | work {i : Nat} {turn : Turn} {f : Flight} (hf : s.flights[i]? = some f) (ho : f.stage.isOver = false) :
      Step b p s (.work i turn) (s.work b i f turn)
  | perish {i : Nat} {turn : Turn} {f : Flight} {l : Loss} {failure : String} (hf : s.flights[i]? = some f)
      (ho : f.stage.isOver = false) (hl : (f.work b s.cancelled turn s.caches).stage = .lost l failure) :
      Step b p s (.work i turn) ((s.work b i f turn).perish l failure)
  | join {i : Nat} {duration : Duration} {f : Flight} {e : Ending} (hp : s.phase = .waiting)
      (hf : s.flights[i]? = some f) (he : f.stage = .ended e) :
      Step b p s (.join i duration) (s.join b p i f e duration)
  | abort {i : Nat} {duration : Duration} {f : Flight} {l : Loss} {failure : String} (hp : s.phase = .waiting)
      (hf : s.flights[i]? = some f) (hl : f.stage = .lost l failure) :
      Step b p s (.join i duration) (s.abort l failure)
  | publish {i : Nat} {turn : Client.Turn} {q : Publication} (hq : s.publications[i]? = some q) :
      Step b p s (.publish i turn) (s.publish b i q turn)
  | cancel (hc : s.cancelled = false) : Step b p s .cancel { s with cancelled := true }

private theorem step_rest {b : Builder σ} {p : Plan} {s : State σ} (hp : s.phase = .releasing)
    (hs : s.Stuck b p) :
    Step b p s .release (s.rest p) := by
  simp only [State.rest]
  split
  · next hf => exact .finish hp hf hs
  · next hf => exact .wait hp hf hs

private theorem step_take {b : Builder σ} {p : Plan} {s : State σ} {n : String}
    (hp : s.phase = .releasing)
    (hw : s.flights.length < b.workers) (hc : s.cancelled = false) (hn : s.board.next? p = some n) :
    Step b p s .release (s.take b p n) := by
  simp only [State.take]
  cases hb : (s.board.take n).causes.find? n with
  | some cause => exact .skip hp hw hc hn hb
  | none =>
    cases hs : p.graph.find? n with
    | none => exact .lose hp hn hs
    | some source => exact .send hp hw hc hn hb hs

private theorem step_release {b : Builder σ} {p : Plan} {s : State σ} (hp : s.phase = .releasing) :
    Step b p s .release (s.release b p) := by
  simp only [State.release]
  split
  · next h => exact step_rest hp (h.elim .inl fun hc => .inr (.inl hc))
  · next h =>
    obtain ⟨hw, hc⟩ := not_or.mp h
    cases hn : s.board.next? p with
    | none => exact step_rest hp (.inr (.inr hn))
    | some n => exact step_take hp (Nat.lt_of_not_le hw) (Bool.eq_false_iff.mpr hc) hn

theorem eq_lost_of_fatal? {stage : Stage} {l : Loss} {failure : String}
    (h : stage.fatal? = some (l, failure)) : stage = .lost l failure := by
  cases stage with
  | lost l' failure' =>
    simp only [Stage.fatal?, Option.ite_none_right_eq_some, Option.some.injEq, Prod.mk.injEq] at h
    rw [h.2.1, h.2.2]
  | lookup | fetch | await | adopt | compile | keep | ended => cases h

theorem step_of_step? {b : Builder σ} {p : Plan} {s t : State σ} {e : Event}
    (h : s.step? b p e = some t) :
    Step b p s e t := by
  cases e with
  | release =>
    simp only [State.step?] at h
    split at h
    · next hp =>
      cases h
      exact step_release hp
    · cases h
  | work i turn =>
    simp only [State.step?, bind, Option.bind_eq_some_iff] at h
    obtain ⟨f, hf, h⟩ := h
    split at h
    · cases h
    · next ho =>
      have ho : f.stage.isOver = false := Bool.eq_false_iff.mpr ho
      split at h
      · next l failure hl =>
        cases h
        exact .perish hf ho (eq_lost_of_fatal? hl)
      · cases h
        exact .work hf ho
  | join i duration =>
    simp only [State.step?, bind, Option.bind_eq_some_iff] at h
    obtain ⟨f, hf, h⟩ := h
    split at h
    · cases h
    · next hp =>
      have hp : s.phase = .waiting := by simpa using hp
      split at h
      · next e he =>
        cases h
        exact .join hp hf he
      · next hl =>
        cases h
        exact .abort hp hf hl
      · cases h
  | publish i turn =>
    simp only [State.step?, bind, Option.bind_eq_some_iff] at h
    obtain ⟨q, hq, h⟩ := h
    cases h
    exact .publish hq
  | cancel =>
    simp only [State.step?] at h
    split at h
    · cases h
    · next hc =>
      cases h
      exact .cancel (Bool.eq_false_iff.mpr hc)

theorem exists_work {b : Builder σ} {p : Plan} {s : State σ} {i : Nat} {f : Flight} (hf : s.flights[i]? = some f)
    (ho : f.stage.isOver = false) (turn : Turn) : ∃ t, s.step? b p (.work i turn) = some t := by
  cases hfatal : (f.work b s.cancelled turn s.caches).stage.fatal? with
  | none => exact ⟨s.work b i f turn, by simp [State.step?, hf, ho, hfatal]⟩
  | some lost => exact ⟨(s.work b i f turn).perish lost.1 lost.2, by simp [State.step?, hf, ho, hfatal]⟩

/-- A run of a build, between the events of which others may change the caches in some ways. -/
inductive Run (b : Builder σ) (p : Plan) (meddles : Caches σ → Caches σ → Prop) :
    State σ → List Event → State σ → Prop
  | nil {s : State σ} : Run b p meddles s [] s
  | event {s t u : State σ} {e : Event} {es : List Event} (h : s.step? b p e = some t)
      (rest : Run b p meddles t es u) : Run b p meddles s (e :: es) u
  | meddle {s u : State σ} {c : Caches σ} {es : List Event} (h : meddles s.caches c)
      (rest : Run b p meddles { s with caches := c } es u) : Run b p meddles s es u

/-- Without others, runs are the model's own. -/
theorem Run.of_steps? {b : Builder σ} {p : Plan} {meddles : Caches σ → Caches σ → Prop} {s t : State σ}
    {es : List Event} (h : s.steps? b p es = some t) : Run b p meddles s es t := by
  induction es generalizing s with
  | nil =>
    cases h
    exact .nil
  | cons e es ih =>
    simp only [State.steps?, bind, Option.bind_eq_some_iff] at h
    obtain ⟨u, hu, h⟩ := h
    exact .event hu (ih h)

/-- What holds at first and is kept by every step holds after every run. -/
theorem Run.induction {b : Builder σ} {p : Plan} {meddles : Caches σ → Caches σ → Prop}
    {I : State σ → Prop} {s t : State σ} {es : List Event} (h : Run b p meddles s es t)
    (hstep : ∀ s e t, e ∈ es → I s → Step b p s e t → I t)
    (hmeddle : ∀ s c, I s → meddles s.caches c → I { s with caches := c }) (h0 : I s) : I t := by
  induction h with
  | nil => exact h0
  | @event s t u e es hs rest ih =>
    apply ih (fun s e t he => hstep s e t (List.mem_cons_of_mem _ he))
    exact hstep s e t List.mem_cons_self h0 (step_of_step? hs)
  | meddle hm rest ih => exact ih hstep (hmeddle _ _ h0 hm)

theorem Run.trans {b : Builder σ} {p : Plan} {meddles : Caches σ → Caches σ → Prop} {s t u : State σ}
    {es fs : List Event} (h : Run b p meddles s es t) (h' : Run b p meddles t fs u) :
    Run b p meddles s (es ++ fs) u := by
  induction h with
  | nil => exact h'
  | event hs _ ih => exact .event hs (ih h')
  | meddle hm _ ih => exact .meddle hm (ih h')

/-- What holds of the first state and no events, and is kept as events are added, holds after every
run. -/
theorem Run.history {b : Builder σ} {p : Plan} {meddles : Caches σ → Caches σ → Prop}
    {I : List Event → State σ → Prop} {s t : State σ} {es : List Event}
    (hstep : ∀ es u e v, Run b p meddles s es u → I es u → u.step? b p e = some v → I (es ++ [e]) v)
    (hmeddle : ∀ es u c, Run b p meddles s es u → I es u → meddles u.caches c →
      I es { u with caches := c })
    (h0 : I [] s) (h : Run b p meddles s es t) : I es t := by
  have hfrom : ∀ {u t es}, Run b p meddles u es t → ∀ before, Run b p meddles s before u →
      I before u → I (before ++ es) t := fun h => by
    induction h with
    | nil =>
      intro before hb hi
      rwa [List.append_nil]
    | @event u v t e es hs _ ih =>
      intro before hb hi
      have := ih (before ++ [e]) (hb.trans (.event hs .nil)) (hstep before u e v hb hi hs)
      rwa [List.append_assoc, List.singleton_append] at this
    | @meddle u t c es hm _ ih =>
      intro before hb hi
      have hb' : Run b p meddles s before { u with caches := c } := by
        simpa using hb.trans (.meddle hm .nil)
      exact ih before hb' (hmeddle before u c hb hi hm)
  exact hfrom h [] .nil h0

/-- What holds of the units in flight, if they are sent off so and work keeps it. -/
theorem Step.flights {b : Builder σ} {p : Plan} {s t : State σ} {e : Event} {P : Flight → Prop}
    (hs : Step b p s e t) (h : ∀ f ∈ s.flights, P f)
    (hsend : ∀ n source, s.phase = .releasing → s.board.next? p = some n → s.board.causes.find? n = none →
      p.graph.find? n = some source → P (s.flightOf b n source))
    (hwork : ∀ f ∈ s.flights, ∀ turn : Turn, f.stage.isOver = false →
      P { f with stage := (f.work b s.cancelled turn s.caches).stage }) :
    ∀ f ∈ t.flights, P f := by
  cases hs with
  | finish | wait | skip | lose | publish | cancel => exact h
  | send hp hw hc hn hb hs =>
    intro f hf
    rcases List.mem_append.mp hf with hf | hf
    · exact h f hf
    · rw [List.mem_singleton.mp hf]
      exact hsend _ _ hp hn hb hs
  | @work i turn f hf ho =>
    intro g hg
    rcases List.mem_or_eq_of_mem_set hg with hg | rfl
    · exact h g hg
    · exact hwork f (List.mem_of_getElem? hf) turn ho
  | join => exact fun f hf => h f (List.mem_of_mem_eraseIdx hf)
  | perish | abort => exact fun f hf => absurd hf List.not_mem_nil

theorem Step.cancelled_eq {b : Builder σ} {p : Plan} {s t : State σ} {e : Event} (hs : Step b p s e t)
    (he : e ≠ .cancel) : t.cancelled = s.cancelled := by
  cases hs with
  | cancel => exact absurd rfl he
  | finish | wait | skip | send | lose | work | perish | join | abort | publish => rfl

/-- A build is given up only for a unit that the work on breaks down. -/
theorem Step.aborted_cases {b : Builder σ} {p : Plan} {s t : State σ} {e : Event} (hs : Step b p s e t) {l : Loss}
    {failure : String} (h : t.phase = .aborted l failure) : s.phase = .aborted l failure ∨ (∃ f ∈ s.flights,
      f.stage = .lost l failure ∨ f.stage.isOver = false ∧
        ∃ turn, (f.work b s.cancelled turn s.caches).stage = .lost l failure) := by
  cases hs with
  | finish | wait | join => cases h
  | abort hphase hf hl =>
    cases h
    exact .inr ⟨_, List.mem_of_getElem? hf, .inl hl⟩
  | perish hf ho hl =>
    cases h
    exact .inr ⟨_, List.mem_of_getElem? hf, .inr ⟨ho, _, hl⟩⟩
  | skip | send | lose | work | publish | cancel => exact .inl h

end BuildCache.Build
