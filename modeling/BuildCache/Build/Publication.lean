import BuildCache.Build.Basic

/-! # Publications: compiled artifacts on their way to the remote -/
namespace BuildCache

structure Publication where
  artifact : Artifact
  /-- Nothing before the remote is first called. -/
  wait : Option (Client.Wait Unit)

namespace Publication

variable {σ : Type}

def of (a : Artifact) : Publication := ⟨a, none⟩

/-- The moment at which the next step is due. -/
def due (q : Publication) : Nat := q.wait.elim 0 (·.ends)

def call (b : Builder σ) (cancelled : Bool) (turn : Client.Turn) (q : Publication) (s : Client.State σ) :
    Client.State σ × Client.Progress Unit :=
  match q.wait with
  | none => b.client.startPublish cancelled q.artifact.key q.artifact.encode turn s
  | some w => b.client.resumePublish cancelled q.artifact.key q.artifact.encode w turn s

/-- One step, after which nothing is left of a publication that is over; it does not matter how it ended. -/
def step (b : Builder σ) (cancelled : Bool) (turn : Client.Turn) (q : Publication) (s : Client.State σ) :
    Client.State σ × Option Publication :=
  match q.call b cancelled turn s with
  | (s, .waiting w) => (s, some { q with wait := some w })
  | (s, _) => (s, none)

end Publication
end BuildCache
