import BuildCache.Proofs.Build.Termination

/-! # The run in turns: it makes steps that can come, and goes on until the build is over -/
namespace BuildCache.Build.State

variable {σ : Type} {b : Builder σ} {p : Plan} {s t : State σ}

private theorem mem_zipIdx {α : Type} {l : List α} {e : α × Nat} (h : e ∈ l.zipIdx) :
    l[e.2]? = some e.1 :=
  List.mk_mem_zipIdx_iff_getElem?.mp h

private theorem mem_foremost {f : Flight} {i : Nat} (h : s.foremost? = some (f, i)) :
    s.flights[i]? = some f := by
  obtain ⟨turn, -, hturn⟩ := List.exists_of_findSome?_eq_some h
  exact mem_zipIdx (List.mem_of_find?_eq_some hturn)

private theorem alarm_step {turn : Turn} {a : Alarm} (ha : a ∈ s.alarms turn) (moment : Nat) :
    ∃ t, s.step? b p (a.event moment) = some t := by
  simp only [alarms, List.mem_append, List.mem_map, List.mem_filterMap] at ha
  rcases ha with ⟨q, hq, rfl⟩ | ⟨f, hf, ha⟩
  · refine ⟨s.publish b q.2 q.1 (turn.at moment).toTurn, ?_⟩
    simp [step?, mem_zipIdx hq]
  · obtain ⟨due, hdue, rfl⟩ := Option.map_eq_some_iff.mp ha
    have ho : f.1.stage.isOver = false := by
      cases hs : f.1.stage with
      | await w => rfl
      | lookup | fetch | adopt | compile | keep | ended | lost =>
        rw [hs] at hdue
        cases hdue
    exact exists_work (mem_zipIdx hf) ho (turn.at moment)

private theorem mem_of_earliest? {alarms : List Alarm} {a : Alarm} (h : earliest? alarms = some a) :
    a ∈ alarms := by
  cases alarms with
  | nil => cases h
  | cons first rest =>
    have hfold : ∀ (rest : List Alarm) (first : Alarm),
        rest.foldl (fun a b => if b.due < a.due then b else a) first ∈ first :: rest := fun rest => by
      induction rest with
      | nil => exact fun first => List.mem_cons_self
      | cons next rest ih =>
        intro first
        rw [List.foldl_cons]
        rcases List.mem_cons.mp (ih (if next.due < first.due then next else first)) with h | h
        · rw [h]
          split
          · exact List.mem_cons_of_mem _ List.mem_cons_self
          · exact List.mem_cons_self
        · exact List.mem_cons_of_mem _ (List.mem_cons_of_mem _ h)
    cases h
    exact hfold rest first

private theorem foremost_step {env : Environment} (hk : s.Kept p env) {f : Flight} {i : Nat}
    (hf : s.foremost? = some (f, i)) (hr : s.phase ≠ .releasing) (ho : f.stage.isOver = true)
    (duration : Duration) :
    ∃ t, s.step? b p (.join i duration) = some t := by
  have hget := mem_foremost hf
  have hmem := List.mem_of_getElem? hget
  have hphase : s.phase = .waiting := by
    simp only [Kept] at hk
    cases hp : s.phase with
    | waiting => rfl
    | releasing => exact absurd hp hr
    | finished =>
      rw [hp] at hk
      obtain ⟨-, -, -, hnil, -⟩ := hk
      rw [hnil] at hmem
      cases hmem
    | aborted =>
      rw [hp] at hk
      rw [hk.2] at hmem
      cases hmem
  cases hs : f.stage with
  | ended e => exact ⟨s.join b p i f e duration, by simp [step?, hget, hphase, hs]⟩
  | lost l failure => exact ⟨s.abort l failure, by simp [step?, hget, hphase, hs]⟩
  | lookup | fetch | await | adopt | compile | keep =>
    rw [hs] at ho
    cases ho

private theorem alarm_ne_cancel {turn : Turn} {a : Alarm} (ha : a ∈ s.alarms turn) (moment : Nat) :
    a.event moment ≠ .cancel := by
  simp only [alarms, List.mem_append, List.mem_map, List.mem_filterMap] at ha
  rcases ha with ⟨q, -, rfl⟩ | ⟨f, -, ha⟩
  · intro h
    cases h
  · obtain ⟨due, -, rfl⟩ := Option.map_eq_some_iff.mp ha
    intro h
    cases h

/-- The events that the run may choose, with why each of them can come. -/
private inductive Next (s : State σ) (i : Interruption) (turn : Turn) : Event → Prop
  | cancel (hi : i ≠ .never) (hc : s.cancelled = false) : Next s i turn .cancel
  | alarm {a : Alarm} (ha : a ∈ s.alarms turn) (moment : Nat) : Next s i turn (a.event moment)
  | release (hphase : s.phase = .releasing) : Next s i turn .release
  | join {f : Flight} {place : Nat} (hf : s.foremost? = some (f, place)) (hphase : s.phase ≠ .releasing)
      (ho : f.stage.isOver = true) : Next s i turn (.join place 0)
  | work {f : Flight} {place : Nat} (hf : s.foremost? = some (f, place)) (ho : f.stage.isOver = false)
      (moment : Nat) : Next s i turn (.work place (turn.at moment))

private theorem Next.of_next? {i : Interruption} {turn : Turn} {clock clock' : Nat} {e : Event}
    (h : s.next? i turn clock = some (e, clock')) : Next s i turn e := by
  simp only [next?] at h
  split at h
  · next hi =>
    cases h
    simp only [Bool.and_eq_true, Bool.not_eq_true'] at hi
    refine .cancel (fun he => ?_) hi.1.2
    rw [he] at hi
    cases hi.1.1
  · split at h
    · next a ha =>
      cases h
      exact .alarm (List.mem_of_find?_eq_some ha) clock
    · split at h
      · next hphase =>
        cases h
        exact .release hphase
      · next hphase =>
        split at h
        · next f place hf =>
          split at h
          · next ho =>
            cases h
            exact .join hf hphase ho
          · next ho =>
            split at h
            · next hi =>
              cases h
              simp only [Bool.and_eq_true, Bool.not_eq_true', decide_eq_true_eq] at hi
              refine .cancel (fun he => ?_) hi.2
              rw [he] at hi
              cases hi.1.2
            · cases h
              exact .work hf (Bool.eq_false_iff.mpr ho) clock
        · obtain ⟨a, ha, he⟩ := Option.map_eq_some_iff.mp h
          cases he
          exact .alarm (mem_of_earliest? ha) a.due

private theorem next?_eq_none {i : Interruption} {turn : Turn} {clock : Nat}
    (h : s.next? i turn clock = none) :
    s.phase ≠ .releasing ∧ s.foremost? = none ∧ s.alarms turn = [] := by
  simp only [next?] at h
  split at h
  · cases h
  · split at h
    · cases h
    · split at h
      · cases h
      · next hphase =>
        split at h
        · split at h
          · cases h
          · split at h <;> cases h
        · next hf =>
          refine ⟨hphase, hf, ?_⟩
          cases ha : s.alarms turn with
          | nil => rfl
          | cons a rest =>
            rw [ha] at h
            cases h

theorem ne_cancel_of_next? {turn : Turn} {clock clock' : Nat} {e : Event}
    (h : s.next? .never turn clock = some (e, clock')) : e ≠ .cancel := by
  cases Next.of_next? h with
  | cancel hi hc => exact absurd rfl hi
  | alarm ha moment => exact alarm_ne_cancel ha moment
  | release hphase => simp
  | join hf hphase ho => simp
  | work hf ho moment => simp

theorem step?_next {env : Environment} (hk : s.Kept p env) {i : Interruption} {turn : Turn}
    {clock clock' : Nat}
    {e : Event} (h : s.next? i turn clock = some (e, clock')) : ∃ t, s.step? b p e = some t := by
  cases Next.of_next? h with
  | cancel hi hc => exact ⟨{ s with cancelled := true }, by simp [step?, hc]⟩
  | alarm ha moment => exact alarm_step ha moment
  | release hphase => exact ⟨s.release b p, by rw [step?, if_pos hphase]⟩
  | join hf hphase ho => exact foremost_step hk hf hphase ho 0
  | work hf ho moment => exact exists_work (mem_foremost hf) ho (turn.at moment)

theorem isOver_of_next? {env : Environment} (hk : s.Kept p env) {i : Interruption}
    {turn : Turn} {clock : Nat} (h : s.next? i turn clock = none) : s.isOver = true := by
  obtain ⟨hreleasing, hforemost, halarms⟩ := next?_eq_none h
  cases hphase : s.phase with
  | releasing => exact absurd hphase hreleasing
  | finished | aborted => simp [isOver, hphase]
  | waiting =>
    simp only [Kept] at hk
    rw [hphase] at hk
    obtain ⟨f, rest, hf⟩ := List.exists_cons_of_ne_nil hk.2
    have hmem : (f, 0) ∈ s.flights.zipIdx := by
      rw [List.mk_mem_zipIdx_iff_getElem?, hf]
      rfl
    -- a unit in flight waits for the remote, or it has a turn
    cases hs : f.stage with
    | await w =>
      have hmem' : ⟨w.ends, fun moment => .work 0 (turn.at moment)⟩ ∈ s.alarms turn := by
        refine List.mem_append_right _ (List.mem_filterMap.mpr ⟨_, hmem, ?_⟩)
        simp [hs, Stage.due?]
      rw [halarms] at hmem'
      cases hmem'
    | lookup | fetch | adopt | compile | keep | ended | lost =>
      exfalso
      obtain ⟨turn, hturn, hlt⟩ : ∃ turn, f.stage.turn? = some turn ∧ turn < 5 := by
        rw [hs]
        exact ⟨_, rfl, by decide⟩
      have hfind := List.findSome?_eq_none_iff.mp hforemost turn (List.mem_range.mpr hlt)
      simpa [hturn] using List.find?_eq_none.mp hfind _ hmem

theorem run_isOver (hp : p.Valid) (i : Interruption) (turn : Turn) {events : Nat} (clock : Nat)
    (hk : s.Kept p b.environment) (h : s.eventsLeft b p ≤ events) :
    (s.run b p i turn events clock).isOver = true := by
  induction events generalizing s clock with
  | zero =>
    rw [run]
    by_contra ho
    obtain ⟨e, t, -, ht⟩ := exists_step? (b := b) hk (Bool.eq_false_iff.mpr ho)
    have := eventsLeft_step hp hk (step_of_step? ht)
    omega
  | succ events ih =>
    rw [run]
    split
    · next hnext => exact isOver_of_next? hk hnext
    · next e clock' hnext =>
      obtain ⟨t, ht⟩ := step?_next (b := b) hk hnext
      rw [ht]
      have hlt := eventsLeft_step hp hk (step_of_step? ht)
      exact ih clock' (hk.step hp (step_of_step? ht)) (by omega)

theorem steps?_run (i : Interruption) (turn : Turn) (events clock : Nat) (s : State σ) :
    ∃ es, s.steps? b p es = some (s.run b p i turn events clock) ∧ (i = .never → .cancel ∉ es) := by
  induction events generalizing s clock with
  | zero => exact ⟨[], rfl, fun _ => List.not_mem_nil⟩
  | succ events ih =>
    rw [run]
    split
    · exact ⟨[], rfl, fun _ => List.not_mem_nil⟩
    · next e clock' hnext =>
      cases ht : s.step? b p e with
      | none => exact ⟨[], rfl, fun _ => List.not_mem_nil⟩
      | some t =>
        obtain ⟨es, hes, hcancel⟩ := ih clock' t
        refine ⟨e :: es, by simpa [steps?, ht] using hes, ?_⟩
        rintro rfl hmem
        rcases List.mem_cons.mp hmem with rfl | hmem
        · exact ne_cancel_of_next? hnext rfl
        · exact hcancel rfl hmem

theorem build_isOver {sources : List Source} (h : Plan.ofSources sources = .ok p) (c : Caches σ)
    (i : Interruption)
    (turn : Turn) : ∃ t es, b.build c sources i turn = .ok t ∧ t.isOver = true ∧
      (initial p c).steps? b p es = some t ∧ (i = .never → .cancel ∉ es) := by
  have hp := (Plan.ofSources_ok h).1
  let first : State σ := { initial p c with cancelled := i.beforehand }
  have hk : first.Kept p b.environment := Kept.initial hp b.environment c
  have hleft : first.eventsLeft b p ≤ eventsPerUnit b * p.order.length + 2 := by
    refine Nat.le_trans ?_ (eventsLeft_initial b p c).le
    refine Nat.add_le_add_left ?_ _
    show passesLeft .releasing i.beforehand ≤ passesLeft .releasing false
    cases i.beforehand <;> decide
  obtain ⟨es, hes, hcancel⟩ := steps?_run (b := b) (p := p) i turn
    (eventsPerUnit b * p.order.length + 2) 0 first
  refine ⟨_, (if i.beforehand then [.cancel] else []) ++ es, ?_, run_isOver hp i turn 0 hk hleft, ?_, ?_⟩
  · rw [Builder.build, h]
  · have hfirst : (initial p c).steps? b p (if i.beforehand then [.cancel] else []) = some first := by
      cases hi : i.beforehand with
      | false => simp [steps?, first, hi, initial]
      | true => simp [steps?, step?, first, hi, initial]
    rw [steps?_append, hfirst]
    exact hes
  · rintro rfl
    exact hcancel rfl

end BuildCache.Build.State
