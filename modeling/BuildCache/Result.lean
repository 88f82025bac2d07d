/-! # Results of code that may break down -/
namespace BuildCache

/-- A panic ends the task that it comes up in, an abort the whole process. -/
inductive Crash
  | panicked
  | aborted
  deriving DecidableEq

inductive Result (ε α : Type)
  | ok (value : α)
  | error (e : ε)
  | crashed (c : Crash)
  deriving DecidableEq

namespace Result

variable {ε α : Type}

def ofExcept : Except ε α → Result ε α
  | .ok value => .ok value
  | .error e => .error e

@[simp] theorem ofExcept_ok (value : α) : ofExcept (.ok value : Except ε α) = .ok value := rfl

@[simp] theorem ofExcept_error (e : ε) : ofExcept (.error e : Except ε α) = .error e := rfl

theorem ofExcept_eq_ok {r : Except ε α} {value : α} : ofExcept r = .ok value ↔ r = .ok value := by
  cases r <;> simp

theorem ofExcept_eq_error {r : Except ε α} {e : ε} : ofExcept r = .error e ↔ r = .error e := by
  cases r <;> simp

def toOption : Result ε α → Option α
  | .ok value => some value
  | .error _ | .crashed _ => none

theorem toOption_eq_some {r : Result ε α} {value : α} : r.toOption = some value ↔ r = .ok value := by
  cases r <;> simp [toOption]

end Result
end BuildCache
