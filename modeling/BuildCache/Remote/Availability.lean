import BuildCache.Remote.Client

/-! # Remotes that may be down, with their calls counted -/
namespace BuildCache

inductive Availability
  | up
  | broken
  | silent
  | refusing (status : Nat)
  deriving DecidableEq

/-- What becomes of a call; the remote changes only if it is up. A refusal takes a millisecond. -/
def Availability.reply {σ α : Type} (a : Availability) (name : String) (s : σ) (answered : σ × Reply α) :
    σ × Reply α :=
  match a with
  | .up => answered
  | .broken => (s, ⟨.error (.transport name "connection reset"), some Duration.nanosPerMilli⟩)
  | .silent => (s, ⟨answered.2.result, none⟩)
  | .refusing status => (s, ⟨.error (.status name status), some Duration.nanosPerMilli⟩)

/-- A remote with its availability and the calls made so far. -/
structure Observed (σ : Type) where
  remote : σ
  fetching : Availability
  publishing : Availability
  fetches : Nat
  publishes : Nat

def Observed.initial {σ : Type} (remote : σ) : Observed σ := ⟨remote, .up, .up, 0, 0⟩

def Backend.observed {σ : Type} (b : Backend σ) : Backend (Observed σ) where
  name := b.name
  fetch k s :=
    let (remote, r) := s.fetching.reply b.name s.remote (b.fetch k s.remote)
    ({ s with remote, fetches := s.fetches + 1 }, r)
  publish k data s :=
    let (remote, r) := s.publishing.reply b.name s.remote (b.publish k data s.remote)
    ({ s with remote, publishes := s.publishes + 1 }, r)

end BuildCache
