import BuildCache.Digest

/-! # Source units: a name, its content and the names it depends on -/
namespace BuildCache

structure Source where
  name : String
  content : Bytes
  /-- Names of direct dependencies as declared, possibly repeated. -/
  dependencies : List String
  deriving DecidableEq

namespace Source

def hash (s : Source) : ContentHash := .ofBytes s.content
def size (s : Source) : Nat := s.content.length

/-- The names without the later repetitions. -/
def distinct (seen : List String) : List String → List String
  | [] => []
  | n :: rest => if n ∈ seen then distinct seen rest else n :: distinct (n :: seen) rest

/-- The declared dependencies, each once. -/
def distinctDependencies (s : Source) : List String := distinct [] s.dependencies

theorem mem_distinct {seen names : List String} {n : String} :
    n ∈ distinct seen names ↔ n ∈ names ∧ n ∉ seen := by
  induction names generalizing seen with
  | nil => simp [distinct]
  | cons m rest ih =>
    unfold distinct
    split
    · next h =>
      rw [ih, List.mem_cons]
      constructor
      · exact fun ⟨a, b⟩ => ⟨.inr a, b⟩
      · rintro ⟨rfl | a, b⟩
        · exact absurd h b
        · exact ⟨a, b⟩
    · next h =>
      rw [List.mem_cons, ih, List.mem_cons, List.mem_cons]
      constructor
      · rintro (rfl | ⟨a, b⟩)
        · exact ⟨.inl rfl, h⟩
        · exact ⟨.inr a, fun c => b (.inr c)⟩
      · rintro ⟨rfl | a, b⟩
        · exact .inl rfl
        · by_cases e : n = m
          · exact .inl e
          · exact .inr ⟨a, fun c => c.elim e b⟩

theorem nodup_distinct (seen names : List String) : (distinct seen names).Nodup := by
  induction names generalizing seen with
  | nil => simp [distinct]
  | cons m rest ih =>
    unfold distinct
    split
    · exact ih seen
    · exact List.nodup_cons.mpr ⟨fun h => (mem_distinct.mp h).2 List.mem_cons_self, ih _⟩

@[simp] theorem mem_distinctDependencies {s : Source} {n : String} :
    n ∈ s.distinctDependencies ↔ n ∈ s.dependencies := by simp [distinctDependencies, mem_distinct]

end Source
end BuildCache
