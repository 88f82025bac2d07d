import BuildCache.Remote.Client

/-! # Remotes that follow a script -/
namespace BuildCache

structure Script where
  fetches : List (Reply (Option Bytes))
  publishes : List (Reply Unit)

/-- Takes the next answer of a list, and past its end a fixed one. -/
def Script.draw {α : Type} (fallback : α) : List (Reply α) → Reply α × List (Reply α)
  | [] => (⟨.ok fallback, some 0⟩, [])
  | r :: rest => (r, rest)

/-- Answers from a script, past whose end everything misses and is taken. -/
def Backend.scripted (name : String) : Backend Script where
  name := name
  fetch _ s :=
    let (r, fetches) := Script.draw none s.fetches
    ({ s with fetches }, r)
  publish _ _ s :=
    let (r, publishes) := Script.draw () s.publishes
    ({ s with publishes }, r)

end BuildCache
