import Mathlib.Data.List.Perm.Subperm
import Mathlib.Order.WellFounded
import BuildCache.Graph.Cycle
import BuildCache.Proofs.Graph.Declared

/-! # The cycle search: where it finds no cycle, every chain of needs ends -/
namespace BuildCache.Graph

/-- Finished units, the last one first: each one's needs were finished before it. -/
def Finished (g : Graph) : List String → Prop
  | [] => True
  | n :: rest => (∀ d, g.Needs n d → d ∈ rest) ∧ g.Finished rest

theorem Finished.acc {g : Graph} {done : List String} (h : g.Finished done) :
    ∀ n ∈ done, Acc (fun dependency unit => g.Needs unit dependency) n := by
  induction done with
  | nil => simp
  | cons n rest ih =>
    intro m hm
    rcases List.mem_cons.mp hm with rfl | hm
    · exact .intro m fun d hd => ih h.2 d (h.1 d hd)
    · exact ih h.2 m hm

/-- Units without needs outside of what is finished leave no infinite chain. -/
theorem Finished.acyclic {g : Graph} {done : List String} (h : g.Finished done)
    (hall : ∀ n ∈ g.names, n ∈ done) :
    g.Acyclic := by
  refine ⟨fun n => .intro n fun d hd => ?_⟩
  exact h.acc d (hall d hd.right_mem)

/-- What a search keeps: it adds finished units that are not on the path. -/
structure Searched (g : Graph) (path before after : List String) : Prop where
  finished : g.Finished after
  grown : ∀ n ∈ before, n ∈ after
  apart : ∀ n ∈ path, n ∉ after

theorem Searched.trans {g : Graph} {path a b c : List String} (h : g.Searched path a b)
    (h' : g.Searched path b c) :
    g.Searched path a c := ⟨h'.finished, fun n hn => h'.grown n (h.grown n hn), h'.apart⟩

/-- A path that can still take up `depth` units. -/
structure Open (g : Graph) (depth : Nat) (path : List String) : Prop where
  nodup : path.Nodup
  known : ∀ n ∈ path, n ∈ g.names
  room : path.length + depth = g.size

theorem Open.length_lt {g : Graph} {depth : Nat} {path : List String} (h : g.Open depth path)
    {unit : String} (hu : unit ∈ g.names) (hp : unit ∉ path) : path.length < g.size := by
  have hsub : (unit :: path).Subperm g.names :=
    (List.nodup_cons.mpr ⟨hp, h.nodup⟩).subperm fun n hn => by
      rcases List.mem_cons.mp hn with rfl | hn
      · exact hu
      · exact h.known n hn
  have := hsub.length_le
  simp only [List.length_cons, names, List.length_map] at this
  exact this

theorem Open.cons {g : Graph} {depth : Nat} {path : List String} (h : g.Open (depth + 1) path)
    {unit : String} (hu : unit ∈ g.names) (hp : unit ∉ path) : g.Open depth (unit :: path) where
  nodup := List.nodup_cons.mpr ⟨hp, h.nodup⟩
  known n hn := by
    rcases List.mem_cons.mp hn with rfl | hn
    · exact hu
    · exact h.known n hn
  room := by
    have := h.room
    simp only [List.length_cons]
    omega

/-- What a search for one unit at some depth promises. -/
private def Visits (g : Graph) (depth : Nat) : Prop :=
  ∀ path done unit after, g.Open depth path → g.Finished done → (∀ n ∈ path, n ∉ done) → unit ∈ g.names →
    unit ∉ path → unit ∉ done → g.visit depth path done unit = .ok after →
      g.Searched path done after ∧ unit ∈ after

private theorem visitAll_spec {g : Graph} {depth : Nat} (hv : Visits g depth)
    {path units done after : List String}
    (ho : g.Open depth path) (hf : g.Finished done) (ha : ∀ n ∈ path, n ∉ done)
    (hk : ∀ n ∈ units, n ∈ g.names) (h : g.visitAll depth path done units = .ok after) :
    g.Searched path done after ∧ ∀ n ∈ units, n ∈ after := by
  induction units generalizing done with
  | nil =>
    rw [visitAll] at h
    cases h
    exact ⟨⟨hf, fun _ hn => hn, ha⟩, by simp⟩
  | cons unit rest ih =>
    have hk' : ∀ n ∈ rest, n ∈ g.names := fun n hn => hk n (List.mem_cons_of_mem _ hn)
    rw [visitAll] at h
    split at h
    · cases h
    · next hp =>
      split at h
      · next hd =>
        obtain ⟨hs, hall⟩ := ih hf ha hk' h
        refine ⟨hs, fun n hn => ?_⟩
        rcases List.mem_cons.mp hn with rfl | hn
        · exact hs.grown n hd
        · exact hall n hn
      · next hd =>
        cases hvisit : g.visit depth path done unit with
        | error e =>
          rw [hvisit] at h
          cases h
        | ok middle =>
          rw [hvisit] at h
          obtain ⟨hs, hu⟩ := hv path done unit middle ho hf ha (hk unit List.mem_cons_self) hp hd hvisit
          obtain ⟨hs', hall⟩ := ih hs.finished hs.apart hk' h
          refine ⟨hs.trans hs', fun n hn => ?_⟩
          rcases List.mem_cons.mp hn with rfl | hn
          · exact hs'.grown n hu
          · exact hall n hn

private theorem visits (g : Graph) (depth : Nat) : Visits g depth := by
  induction depth with
  | zero =>
    intro path done unit after ho _ _ hk hp _ _
    have := ho.length_lt hk hp
    have := ho.room
    omega
  | succ depth ih =>
    intro path done unit after ho hf ha hk hp hd h
    rw [visit] at h
    cases hall : g.visitAll depth (unit :: path) done (g.successors unit) with
    | error e =>
      rw [hall] at h
      cases h
    | ok middle =>
      rw [hall] at h
      cases h
      have happart : ∀ n ∈ unit :: path, n ∉ done := fun n hn => by
        rcases List.mem_cons.mp hn with rfl | hn
        · exact hd
        · exact ha n hn
      have hknown : ∀ n ∈ g.successors unit, n ∈ g.names :=
        fun n hn => (g.edges_known _ (mem_successors.mp hn)).2
      obtain ⟨hs, hneeds⟩ := visitAll_spec ih (ho.cons hk hp) hf happart hknown hall
      refine ⟨⟨⟨fun d hn => hneeds d (mem_successors.mpr hn), hs.finished⟩, ?_, ?_⟩, List.mem_cons_self⟩
      · exact fun n hn => List.mem_cons_of_mem _ (hs.grown n hn)
      · intro n hn hmem
        rcases List.mem_cons.mp hmem with rfl | hmem
        · exact hp hn
        · exact hs.apart n (List.mem_cons_of_mem _ hn) hmem

theorem acyclic_of_cycle?_eq_none {g : Graph} (h : g.cycle? = none) : g.Acyclic := by
  simp only [cycle?] at h
  cases hall : g.visitAll g.size [] [] (sortNames g.names) with
  | error path =>
    rw [hall] at h
    cases h
  | ok done =>
    have ho : g.Open g.size [] := ⟨.nil, by simp, by simp⟩
    have hk : ∀ n ∈ sortNames g.names, n ∈ g.names := fun n hn => mem_sortNames.mp hn
    have hfinished : g.Finished [] := trivial
    obtain ⟨hs, hnames⟩ := visitAll_spec (visits g g.size) ho hfinished (by simp) hk hall
    exact hs.finished.acyclic fun n hn => hnames n (mem_sortNames.mpr hn)

theorem Acyclic.exists_least {g : Graph} (h : g.Acyclic) {P : String → Prop} {n : String} (hn : P n) :
    ∃ m, P m ∧ ∀ d, g.Needs m d → ¬P d := by
  obtain ⟨m, hm, hleast⟩ := h.has_min {m | P m} ⟨n, hn⟩
  exact ⟨m, hm, fun d hd hp => hleast d hp hd⟩

end BuildCache.Graph
