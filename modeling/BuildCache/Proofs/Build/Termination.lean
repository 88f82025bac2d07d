import Mathlib.Algebra.BigOperators.Group.List.Basic
import Mathlib.Algebra.Ring.Nat
import BuildCache.Build.Run
import BuildCache.Proofs.Build.Invariant
import BuildCache.Proofs.Remote.Wait
import BuildCache.Proofs.Timestamp

/-! # Builds end: every event uses up one of the steps that are allowed for, and one can always come -/
namespace BuildCache

/-- The most steps from a stage on: those of the work, the result and the pass after it, and the
publication. -/
def Stage.steps (retries : Nat) : Stage → Nat
  | lookup => 4 * retries + 9
  | fetch => 4 * retries + 8
  | await w => 2 * retries + 6 + w.steps retries
  | adopt _ | compile => 2 * retries + 6
  | keep _ => 2 * retries + 5
  | ended _ | lost .. => 2 * retries + 4

namespace Publication

def steps (retries : Nat) (q : Publication) : Nat := q.wait.elim (2 * retries + 2) (·.steps retries)

theorem steps_step {σ : Type} {b : Builder σ} {cancelled : Bool} {turn : Client.Turn} {q q' : Publication}
    {s : Client.State σ} (h : (q.step b cancelled turn s).2 = some q') :
    q'.steps b.client.policy.maxRetries < q.steps b.client.policy.maxRetries := by
  simp only [step] at h
  split at h
  · next s' w hw =>
    cases h
    simp only [call] at hw
    cases hq : q.wait with
    | none =>
      rw [hq] at hw
      have := Client.startPublish_steps (congrArg Prod.snd hw)
      simp only [steps, hq, Option.elim]
      omega
    | some v =>
      rw [hq] at hw
      have := Client.resumePublish_steps (congrArg Prod.snd hw)
      simpa only [steps, hq, Option.elim] using this
  · cases h

theorem steps_pos (retries : Nat) (q : Publication) : 0 < q.steps retries := by
  simp only [steps]
  cases q.wait with
  | none => exact Nat.succ_pos _
  | some w => cases w <;> exact Nat.succ_pos _

end Publication

namespace Flight

variable {σ : Type}

theorem steps_fetched (f : Flight) (memory : Option Nat) (failure : String) (retries : Nat)
    (p : Client.Progress (Option Bytes)) : (f.fetched memory failure p).steps retries ≤ 2 * retries + 6 ∨
      ∃ w, p = .waiting w ∧ f.fetched memory failure p = .await w := by
  cases p with
  | waiting w => exact .inr ⟨w, rfl, rfl⟩
  | lost =>
    left
    simp only [fetched, Stage.steps]
    omega
  | «over» result =>
    left
    rcases result with e | _ | raw
    · cases e <;> simp only [fetched, Stage.steps] <;> omega
    · simp only [fetched, Stage.steps]
      omega
    · simp only [fetched]
      split <;> simp only [Stage.steps] <;> omega

theorem steps_work (b : Builder σ) (cancelled : Bool) (turn : Build.Turn)
    (c : Caches σ) {f : Flight} (ho : f.stage.isOver = false) :
    (f.work b cancelled turn c).stage.steps b.client.policy.maxRetries
      < f.stage.steps b.client.policy.maxRetries := by
  simp only [work]
  cases hs : f.stage with
  | lookup =>
    simp only [lookup]
    split <;> simp only [Stage.steps] <;> omega
  | fetch =>
    change (f.fetched _ _ (b.client.startFetch cancelled f.key turn.toTurn c.remote).2).steps _
      < 4 * b.client.policy.maxRetries + 8
    rcases f.steps_fetched c.store.process.memory turn.failure b.client.policy.maxRetries
      (b.client.startFetch cancelled f.key turn.toTurn c.remote).2 with h | ⟨w, hw, he⟩
    · omega
    · have := Client.startFetch_steps hw
      rw [he]
      simp only [Stage.steps]
      omega
  | await w =>
    change (f.fetched _ _ (b.client.resumeFetch cancelled f.key w turn.toTurn c.remote).2).steps _
      < 2 * b.client.policy.maxRetries + 6 + w.steps b.client.policy.maxRetries
    rcases f.steps_fetched c.store.process.memory turn.failure b.client.policy.maxRetries
      (b.client.resumeFetch cancelled f.key w turn.toTurn c.remote).2 with h | ⟨w', hw, he⟩
    · have : 0 < w.steps b.client.policy.maxRetries := by cases w <;> exact Nat.succ_pos _
      omega
    · have := Client.resumeFetch_steps hw
      rw [he]
      simp only [Stage.steps]
      omega
  | adopt a =>
    simp only [store, Stage.steps]
    omega
  | compile =>
    simp only [compile]
    split <;> simp only [Stage.steps] <;> omega
  | keep a =>
    simp only [store, Stage.steps]
    omega
  | ended e =>
    rw [hs] at ho
    cases ho
  | lost =>
    rw [hs] at ho
    cases ho

end Flight

namespace Build

/-- A turn on new year's day, with nothing out of the ordinary. -/
def Turn.plain (moment : Nat) : Turn := ⟨.plain moment, ⟨.newYear, by decide⟩, "the task panicked"⟩

end Build

namespace Build.State

variable {σ : Type}

/-- The last pass of the release loop and the cancellation, unless they came. -/
def passesLeft (phase : Phase) (cancelled : Bool) : Nat :=
    (if phase = .releasing then 1 else 0) + if cancelled then 0 else 1

def flightSteps (b : Builder σ) (flights : List Flight) : Nat :=
  (flights.map (·.stage.steps b.client.policy.maxRetries)).sum

def publicationSteps (b : Builder σ) (publications : List Publication) : Nat :=
  (publications.map (·.steps b.client.policy.maxRetries)).sum

/-- The most events that can still come. -/
def eventsLeft (b : Builder σ) (p : Plan) (s : State σ) : Nat :=
  eventsPerUnit b * (p.order.length - s.board.taken.length) + flightSteps b s.flights
    + publicationSteps b s.publications + passesLeft s.phase s.cancelled

theorem eventsLeft_initial (b : Builder σ) (p : Plan) (c : Caches σ) :
    (initial p c).eventsLeft b p = eventsPerUnit b * p.order.length + 2 := rfl

private theorem sum_set {α : Type} (f : α → Nat) {l : List α} {i : Nat} {a : α}
    (h : l[i]? = some a) (a' : α) :
    ((l.set i a').map f).sum + f a = (l.map f).sum + f a' := by
  rw [((perm_set h a').map f).sum_nat, ((perm_eraseIdx h).map f).sum_nat, List.map_cons, List.map_cons,
    List.sum_cons, List.sum_cons]
  omega

private theorem sum_eraseIdx {α : Type} (f : α → Nat) {l : List α} {i : Nat} {a : α}
    (h : l[i]? = some a) :
    ((l.eraseIdx i).map f).sum + f a = (l.map f).sum := by
  rw [((perm_eraseIdx h).map f).sum_nat, List.map_cons, List.sum_cons, Nat.add_comm]

private theorem length_taken_lt {p : Plan} (hp : p.Valid) {env : Environment} {b : Board}
    {flights : List Flight}
    (h : Orderly p env b flights) {n : String} (hn : n ∈ b.ready) : b.taken.length < p.order.length := by
  have hready := (h.tracks.frontier.ready_iff n).mp hn
  have hsub : (n :: b.taken).Subperm p.order :=
    (List.nodup_cons.mpr ⟨hready.2.1, h.tracks.frontier.taken_nodup⟩).subperm fun m hm => by
      rcases List.mem_cons.mp hm with rfl | hm
      · exact hp.mem_order.mpr hready.1
      · exact hp.mem_order.mpr (h.tracks.known hm)
  exact hsub.length_le

private theorem eventsPerUnit_mul {b : Builder σ} {taken total : Nat} (h : taken < total) :
    eventsPerUnit b * (total - taken)
      = eventsPerUnit b * (total - (taken + 1)) + (4 * b.client.policy.maxRetries + 10) := by
  have : total - taken = total - (taken + 1) + 1 := by omega
  rw [this, Nat.mul_add, Nat.mul_one]
  rfl

private theorem flightSteps_eraseIdx {b : Builder σ} {flights : List Flight} {i : Nat} {f : Flight}
    (hf : flights[i]? = some f) (ho : f.stage.isOver = true) :
    flightSteps b (flights.eraseIdx i) + (2 * b.client.policy.maxRetries + 4)
    = flightSteps b flights := by
  have hsum := sum_eraseIdx (fun f : Flight => f.stage.steps b.client.policy.maxRetries) hf
  have hsteps : f.stage.steps b.client.policy.maxRetries = 2 * b.client.policy.maxRetries + 4 := by
    cases hs : f.stage with
    | ended e | lost => rfl
    | lookup | fetch | await w | adopt a | compile | keep a =>
      rw [hs] at ho
      cases ho
  rwa [hsteps] at hsum

private theorem publicationSteps_published (b : Builder σ) (e : Ending) :
    publicationSteps b (published b e) ≤ 2 * b.client.policy.maxRetries + 2 := by
  cases e with
  | compiled a =>
    simp only [published]
    split
    · exact Nat.le_refl _
    · exact Nat.zero_le _
  | localHit a | remoteHit a | failed message | cancelled => exact Nat.zero_le _

private theorem passesLeft_le (phase : Phase) (cancelled : Bool) :
    passesLeft phase cancelled ≤ 1 + passesLeft .waiting cancelled := by
  cases phase <;> simp only [passesLeft, reduceCtorEq, if_true, if_false] <;> omega

private theorem eventsLeft_lt_of_taken {b : Builder σ} {p : Plan} (hp : p.Valid) {env : Environment}
    {s t : State σ} (ho : Orderly p env s.board s.flights) {n : String} (hn : n ∈ s.board.ready)
    (htaken : t.board.taken.length = s.board.taken.length + 1)
    (hflights : flightSteps b t.flights ≤ flightSteps b s.flights + (4 * b.client.policy.maxRetries + 9))
    (hpublications : t.publications = s.publications)
    (hpass : passesLeft t.phase t.cancelled = passesLeft s.phase s.cancelled) :
    t.eventsLeft b p < s.eventsLeft b p := by
  have hmul := eventsPerUnit_mul (b := b) (length_taken_lt hp ho hn)
  rw [eventsLeft, eventsLeft, htaken, hpublications, hpass]
  omega

private theorem flightSteps_send (b : Builder σ) (s : State σ) (n : String) (source : Source) :
    flightSteps b (s.send b n source).flights
      = flightSteps b s.flights + (4 * b.client.policy.maxRetries + 9) := by
  simp only [flightSteps, send, List.map_append, List.sum_append, List.map_cons,
    List.map_nil, List.sum_cons, List.sum_nil]
  rfl

private theorem flightSteps_work {b : Builder σ} {s : State σ} {i : Nat} {f : Flight}
    (hf : s.flights[i]? = some f) (ho : f.stage.isOver = false) (turn : Turn) :
    flightSteps b (s.work b i f turn).flights < flightSteps b s.flights := by
  have hsum := sum_set (fun f : Flight => f.stage.steps b.client.policy.maxRetries) hf
    { f with stage := (f.work b s.cancelled turn s.caches).stage }
  have hlt := Flight.steps_work b s.cancelled turn s.caches ho
  simp only [flightSteps, work] at hsum ⊢
  omega

private theorem publicationSteps_publish {b : Builder σ} {s : State σ} {i : Nat} {q : Publication}
    (hq : s.publications[i]? = some q) (turn : Client.Turn) :
    publicationSteps b (s.publish b i q turn).publications < publicationSteps b s.publications := by
  simp only [publicationSteps, publish]
  cases hn : (q.step b s.cancelled turn s.caches.remote).2 with
  | none =>
    have hsum := sum_eraseIdx (fun q : Publication => q.steps b.client.policy.maxRetries) hq
    have hpos := q.steps_pos b.client.policy.maxRetries
    simp only [Option.elim]
    omega
  | some q' =>
    have hsum := sum_set (fun q : Publication => q.steps b.client.policy.maxRetries) hq q'
    have hlt := Publication.steps_step hn
    simp only [Option.elim]
    omega

/-- A result uses up more than is added for its publication and for another pass. -/
private theorem eventsLeft_join {b : Builder σ} {p : Plan} {s : State σ}
    (hphase : s.phase = .waiting) {i : Nat}
    {f : Flight} {e : Ending} (hf : s.flights[i]? = some f) (he : f.stage = .ended e)
    (duration : Duration) :
    (s.join b p i f e duration).eventsLeft b p < s.eventsLeft b p := by
  have htaken : (s.join b p i f e duration).board.taken = s.board.taken := by
    simp only [join, Board.record, Orderly.taken_conclude]
  have hflights := flightSteps_eraseIdx (b := b) hf (by rw [he]; rfl)
  have hpublished := publicationSteps_published b e
  have hpublications : publicationSteps b (s.publications ++ published b e)
      = publicationSteps b s.publications + publicationSteps b (published b e) := by
    simp only [publicationSteps, List.map_append, List.sum_append]
  have hpass := passesLeft_le .releasing s.cancelled
  have hleft : (s.join b p i f e duration).eventsLeft b p
      = eventsPerUnit b * (p.order.length - (s.join b p i f e duration).board.taken.length)
        + flightSteps b (s.flights.eraseIdx i) + publicationSteps b (s.publications ++ published b e)
        + passesLeft .releasing s.cancelled := rfl
  rw [hleft, htaken, hpublications, eventsLeft, hphase]
  omega

theorem eventsLeft_step {b : Builder σ} {p : Plan} (hp : p.Valid) {s t : State σ} {e : Event}
    (h : s.Kept p b.environment) (hs : Step b p s e t) : t.eventsLeft b p < s.eventsLeft b p := by
  cases hs with
  | finish hphase hf hs =>
    have hpass : passesLeft .finished s.cancelled < passesLeft s.phase s.cancelled := by
      simp only [hphase, passesLeft, reduceCtorEq, if_false, if_true]
      omega
    exact Nat.add_lt_add_left hpass _
  | wait hphase hf hs =>
    have hpass : passesLeft .waiting s.cancelled < passesLeft s.phase s.cancelled := by
      simp only [hphase, passesLeft, reduceCtorEq, if_false, if_true]
      omega
    exact Nat.add_lt_add_left hpass _
  | skip hphase hw hc hn hb =>
    exact eventsLeft_lt_of_taken hp (h.orderly (.inl hphase))
      (Board.mem_ready_of_next? hn) List.length_append
      (Nat.le_add_right _ _) rfl rfl
  | send hphase hw hc hn hb hs =>
    exact eventsLeft_lt_of_taken hp (h.orderly (.inl hphase))
      (Board.mem_ready_of_next? hn) List.length_append
      (Nat.le_of_eq (flightSteps_send b s _ _)) rfl rfl
  | lose hphase hn hs => exact absurd hs (h.find?_next_ne_none hphase hn)
  | @work i turn f hf ho =>
    have hflights := flightSteps_work (b := b) hf ho turn
    exact Nat.add_lt_add_right (Nat.add_lt_add_right (Nat.add_lt_add_left hflights _) _) _
  | @perish i turn f l failure hf ho =>
    have hflights := flightSteps_work (b := b) hf ho turn
    have hpass : passesLeft (.aborted l failure) s.cancelled ≤ passesLeft s.phase s.cancelled := by
      simp only [passesLeft, reduceCtorEq, if_false]
      omega
    have hleft : ((s.work b i f turn).perish l failure).eventsLeft b p
      = eventsPerUnit b * (p.order.length - s.board.taken.length) + 0 + 0
          + passesLeft (.aborted l failure) s.cancelled := rfl
    rw [hleft, eventsLeft]
    omega
  | join hphase hf he => exact eventsLeft_join hphase hf he _
  | @abort i duration f l failure hphase hf hl =>
    have hflights := flightSteps_eraseIdx (b := b) hf (by rw [hl]; rfl)
    have hleft : (s.abort l failure).eventsLeft b p = eventsPerUnit b * (p.order.length - s.board.taken.length) + 0
          + publicationSteps b s.publications + passesLeft .waiting s.cancelled := rfl
    rw [hleft, eventsLeft, hphase]
    omega
  | publish hq => exact Nat.add_lt_add_right (Nat.add_lt_add_left (publicationSteps_publish hq _) _) _
  | cancel hc =>
    have hpass : passesLeft s.phase true < passesLeft s.phase s.cancelled := by
      rw [hc, passesLeft, passesLeft, if_pos rfl, if_neg Bool.false_ne_true]
      omega
    exact Nat.add_lt_add_left hpass _

theorem length_add_eventsLeft_le {b : Builder σ} {p : Plan} (hp : p.Valid)
    {meddles : Caches σ → Caches σ → Prop}
    {s t : State σ} {es : List Event} (hr : Run b p meddles s es t) (h : s.Kept p b.environment) :
    es.length + t.eventsLeft b p ≤ s.eventsLeft b p := by
  induction hr with
  | nil => exact (Nat.zero_add _).le
  | event hs rest ih =>
    have hlt := eventsLeft_step hp h (step_of_step? hs)
    have := ih (h.step hp (step_of_step? hs))
    simp only [List.length_cons]
    omega
  | meddle hm rest ih => exact ih h

theorem exists_step? {b : Builder σ} {p : Plan} {env : Environment} {s : State σ} (h : s.Kept p env)
    (ho : s.isOver = false) : ∃ e t, e ≠ .cancel ∧ s.step? b p e = some t := by
  simp only [Kept] at h
  cases hphase : s.phase with
  | releasing =>
    refine ⟨.release, s.release b p, by simp, ?_⟩
    rw [step?, if_pos hphase]
  | waiting =>
    rw [hphase] at h
    obtain ⟨f, rest, hf⟩ := List.exists_cons_of_ne_nil h.2
    have hget : s.flights[0]? = some f := by rw [hf]; rfl
    cases hs : f.stage with
    | ended e =>
      refine ⟨.join 0 0, s.join b p 0 f e 0, by simp, ?_⟩
      simp [step?, hget, hphase, hs]
    | lost l failure =>
      refine ⟨.join 0 0, s.abort l failure, by simp, ?_⟩
      simp [step?, hget, hphase, hs]
    | lookup | fetch | await w | adopt a | compile | keep a =>
      obtain ⟨t, ht⟩ := exists_work (b := b) (p := p) hget (by rw [hs]; rfl) (.plain 0)
      exact ⟨.work 0 (.plain 0), t, by simp, ht⟩
  | finished | aborted => simp [isOver, hphase] at ho

/-- The publications can be brought to their ends, with nothing else in between. -/
theorem exists_drained {b : Builder σ} {p : Plan} (hp : p.Valid) {s : State σ} (h : s.Kept p b.environment) :
    ∃ es t, (∀ e ∈ es, ∃ i turn, e = .publish i turn) ∧ s.steps? b p es = some t ∧ t.publications = [] ∧
      t.board = s.board ∧ t.phase = s.phase := by
  induction hn : s.eventsLeft b p using Nat.strong_induction_on generalizing s with
  | _ n ih =>
    cases hq : s.publications with
    | nil => exact ⟨[], s, fun _ he => absurd he List.not_mem_nil, rfl, hq, rfl, rfl⟩
    | cons q rest =>
      have hstep : s.step? b p (.publish 0 (.plain 0)) = some (s.publish b 0 q (.plain 0)) := by simp [step?, hq]
      have hs := step_of_step? hstep
      obtain ⟨es, t, hes, ht, hnil, hboard, hphase⟩ :=
        ih _ (hn ▸ eventsLeft_step hp h hs) (h.step hp hs) rfl
      refine ⟨.publish 0 (.plain 0) :: es, t, List.forall_mem_cons.mpr ⟨⟨0, _, rfl⟩, hes⟩, ?_, hnil, hboard, hphase⟩
      simpa [steps?, hstep] using ht

end Build.State
end BuildCache
