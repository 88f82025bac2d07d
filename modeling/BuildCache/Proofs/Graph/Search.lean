import Mathlib.Logic.Function.Iterate
import BuildCache.Proofs.Graph.Acyclic

/-! # The cycle search by single steps, on a stack of units with the dependencies left to follow -/
namespace BuildCache.Graph

/-- A unit on the path, and those of its dependencies that were not followed yet. -/
structure Frame where
  unit : String
  pending : List String

/-- Where a search stands: the path with its top first, the roots left to begin with, and the units
that are finished. -/
inductive Search
  | going (stack : List Frame) (roots done : List String)
  | over (cycle : Option (List String))

namespace Search

variable {g : Graph} {roots done : List String} {stack : List Frame}

def units (stack : List Frame) : List String := stack.map (·.unit)

/-- Begins with a unit on top of the path. -/
def push (g : Graph) (unit : String) (stack : List Frame) : List Frame := ⟨unit, g.successors unit⟩ :: stack

/-- Finishes the unit on top, follows its next dependency, or begins with the next root. -/
def step (g : Graph) : Search → Search
  | .over cycle => .over cycle
  | .going (⟨unit, []⟩ :: stack) roots done => .going stack roots (unit :: done)
  | .going (⟨unit, next :: pending⟩ :: stack) roots done =>
    let path := unit :: units stack
    let rest := ⟨unit, pending⟩ :: stack
    if next ∈ path then .over (some (cycleTo path next))
    else .going (if next ∈ done then rest else push g next rest) roots done
  | .going [] (root :: roots) done => .going (if root ∈ done then [] else push g root []) roots done
  | .going [] [] _ => .over none

def start (g : Graph) : Search := .going [] (sortNames g.names) []

/-- Some number of steps leads from one state to another. -/
def Leads (g : Graph) (s t : Search) : Prop := ∃ n, (step g)^[n] s = t

theorem Leads.refl (s : Search) : Leads g s s := ⟨0, rfl⟩

theorem Leads.head {s t : Search} (h : Leads g (step g s) t) : Leads g s t := by
  obtain ⟨n, hn⟩ := h
  exact ⟨n + 1, by rw [Function.iterate_succ_apply, hn]⟩

theorem Leads.trans {s t u : Search} (h : Leads g s t) (h' : Leads g t u) : Leads g s u := by
  obtain ⟨n, hn⟩ := h
  obtain ⟨m, hm⟩ := h'
  exact ⟨m + n, by rw [Function.iterate_add_apply, hn, hm]⟩

/-- Where the search stands after what a recursive search answers. -/
def answered (stack : List Frame) (roots : List String) : Except (List String) (List String) → Search
  | .ok done => .going stack roots done
  | .error cycle => .over (some cycle)

/-- The steps from a unit on lead to the answer of the recursive search for it. -/
private def Follows (g : Graph) (depth : Nat) : Prop :=
  ∀ stack roots done unit, g.Open depth (units stack) → unit ∈ g.names → unit ∉ units stack →
    Leads g (.going (push g unit stack) roots done)
      (answered stack roots (g.visit depth (units stack) done unit))

private theorem leads_visitAll {depth : Nat} (hv : Follows g depth) {unit : String} {pending : List String}
    (ho : g.Open depth (unit :: units stack)) (hk : ∀ n ∈ pending, n ∈ g.names) :
    Leads g (.going (⟨unit, pending⟩ :: stack) roots done)
      (answered (⟨unit, []⟩ :: stack) roots (g.visitAll depth (unit :: units stack) done pending)) := by
  induction pending generalizing done with
  | nil =>
    rw [visitAll]
    exact .refl _
  | cons next pending ih =>
    have hk' : ∀ n ∈ pending, n ∈ g.names := fun n hn => hk n (List.mem_cons_of_mem _ hn)
    refine .head ?_
    rw [visitAll, step]
    by_cases hp : next ∈ unit :: units stack
    · rw [if_pos hp, if_pos hp]
      exact .refl _
    · rw [if_neg hp, if_neg hp]
      by_cases hd : next ∈ done
      · rw [if_pos hd, if_pos hd]
        exact ih hk'
      · rw [if_neg hd, if_neg hd]
        refine (hv (⟨unit, pending⟩ :: stack) roots done next ho (hk next List.mem_cons_self) hp).trans ?_
        change Leads g (answered _ roots (g.visit depth (unit :: units stack) done next)) _
        cases g.visit depth (unit :: units stack) done next with
        | error cycle => exact .refl _
        | ok middle => exact ih hk'

private theorem follows (g : Graph) (depth : Nat) : Follows g depth := by
  induction depth with
  | zero =>
    intro stack roots done unit ho hk hp
    have := ho.length_lt hk hp
    have := ho.room
    omega
  | succ depth ih =>
    intro stack roots done unit ho hk hp
    have hknown : ∀ n ∈ g.successors unit, n ∈ g.names := fun n hn => (g.edges_known _ (mem_successors.mp hn)).2
    refine (leads_visitAll ih (ho.cons hk hp) hknown).trans ?_
    rw [visit]
    cases g.visitAll depth (unit :: units stack) done (g.successors unit) with
    | error cycle => exact .refl _
    | ok middle => exact ⟨1, rfl⟩

private theorem leads_roots (hk : ∀ n ∈ roots, n ∈ g.names) :
    Leads g (.going [] roots done)
      (.over (match g.visitAll g.size [] done roots with | .ok _ => none | .error cycle => some cycle)) := by
  induction roots generalizing done with
  | nil =>
    rw [visitAll]
    exact ⟨1, rfl⟩
  | cons root roots ih =>
    have hk' : ∀ n ∈ roots, n ∈ g.names := fun n hn => hk n (List.mem_cons_of_mem _ hn)
    refine .head ?_
    rw [visitAll, if_neg List.not_mem_nil, step]
    by_cases hd : root ∈ done
    · rw [if_pos hd, if_pos hd]
      exact ih hk'
    · rw [if_neg hd, if_neg hd]
      have ho : g.Open g.size (units []) := ⟨.nil, by simp [units], by simp [units]⟩
      refine (follows g g.size [] roots done root ho (hk root List.mem_cons_self) List.not_mem_nil).trans ?_
      change Leads g (answered [] roots (g.visit g.size [] done root)) _
      cases g.visit g.size [] done root with
      | error cycle => exact .refl _
      | ok middle => exact ih hk'

theorem leads_cycle? (g : Graph) : Leads g (start g) (.over g.cycle?) :=
  leads_roots fun _ hn => mem_sortNames.mp hn

end Search
end BuildCache.Graph
